import Sbmt.Forest.Basic
import Sbmt.Search.Cky
import Sbmt.Search.Rules

/-!
# block_cky_: decoding a lattice block by block

| here | there |
| --- | --- |
| `LatticeNode`, `blockSpan` | `lattice_tree::node`, the span of an `internal_node` (`search/block_lattice_tree.hpp:166-180`) |
| `setInsert`, `boundaries` | `std::set<span_index_t> sset` and its filling (`search/lazy/cky.hpp:373-386`) |
| `introCells` | `intro_cells` (`search/lazy/chart.hpp:330-432`): the words of a span and the unary rules over them |
| `binaryEdges` | `create_edge` for every rule and pair of items the split generators reach (`leftRight_exhaustive`) |
| `blockProc` | `first_experiment_cell_proc` (`search/lazy/cky.hpp:138-171`) |
| `BlockCky` | the runs of `block_cky_` (`search/lazy/cky.hpp:364-403`), with one thread or several |

The generators hand out edges lazily and a filter may stop them, so the edges
really built over a span are among those of `built`. A cell here lists the items
put into it; merging equal edges into one item changes neither root nor span. A
cell that is read is final (`ckySt_settles`), so what was read is told from the
chart the call leaves behind.
-/

namespace Sbmt.Search

open Sbmt.Lib ThreadPool List Function
open Sbmt.Forest (TokenType)

variable {Tok Rule Info : Type} [DecidableEq Tok]

/-! ## Lattices -/

/-- A word of the input over a span. -/
structure LatticeEdge (type : Tok → TokenType) where
  span : Span
  source : Tok
  foreign : type source = .foreign

inductive LatticeNode (type : Tok → TokenType) where
  | leaf (e : LatticeEdge type)
  | block (children : List (LatticeNode type))

variable {type : Tok → TokenType}

/-- The least span around two. -/
def Span.hull (s t : Span) : Span :=
  ⟨min s.left t.left, max s.right t.right, by have := s.le; omega, by have := s.bound; have := t.bound; omega⟩

/-- The span of a block from those of its children. -/
def blockSpan : List Span → Span
  | [] => ⟨0, 0, Nat.le_refl 0, Nat.zero_le _⟩
  | s :: ss => ss.foldl Span.hull s

mutual

def LatticeNode.span : LatticeNode type → Span
  | .leaf e => e.span
  | .block cs => blockSpan (spans cs)

def spans : List (LatticeNode type) → List Span
  | [] => []
  | c :: cs => c.span :: spans cs

end

mutual

def LatticeNode.leaves : LatticeNode type → List (LatticeEdge type)
  | .leaf e => [e]
  | .block cs => Search.leaves cs

/-- The words below some nodes, in order. -/
def leaves : List (LatticeNode type) → List (LatticeEdge type)
  | [] => []
  | c :: cs => c.leaves ++ leaves cs

end

mutual

def LatticeNode.blocks : LatticeNode type → List (List (LatticeNode type))
  | .leaf _ => []
  | .block cs => cs :: Search.blocks cs

/-- The blocks among and below some nodes, each as the list of its children. -/
def blocks : List (LatticeNode type) → List (List (LatticeNode type))
  | [] => []
  | c :: cs => c.blocks ++ blocks cs

end

omit [DecidableEq Tok] in

omit [DecidableEq Tok] in
theorem blocks_block (ds cs : List (LatticeNode type)) :
    blocks (.block ds :: cs) = ds :: (blocks ds ++ blocks cs) := rfl

/-- `std::set::insert`. -/
def setInsert (x : Nat) : List Nat → List Nat
  | [] => [x]
  | y :: ys => if x < y then x :: y :: ys else if x = y then y :: ys else y :: setInsert x ys

/-- The ends of the spans, in order and without repetition. -/
def boundaries : List Span → List Nat
  | [] => []
  | s :: ss => setInsert s.left (setInsert s.right (boundaries ss))

variable {x : Nat}

theorem mem_setInsert {y : Nat} : ∀ {l : List Nat}, y ∈ setInsert x l ↔ y = x ∨ y ∈ l
  | [] => by simp [setInsert]
  | z :: l => by
    unfold setInsert
    split
    · simp
    · split
      · rename_i h
        subst h
        simp
      · simp only [mem_cons, mem_setInsert]
        tauto

theorem setInsert_increasing : ∀ {l : List Nat}, l.Pairwise (· < ·) → (setInsert x l).Pairwise (· < ·)
  | [], _ => by simp [setInsert]
  | z :: l, h => by
    obtain ⟨hz, hl⟩ := pairwise_cons.1 h
    unfold setInsert
    split
    · rename_i hlt
      refine pairwise_cons.2 ⟨?_, h⟩
      intro y hy
      rcases mem_cons.1 hy with rfl | hy
      · exact hlt
      · exact Nat.lt_trans hlt (hz y hy)
    · split
      · exact h
      · refine pairwise_cons.2 ⟨?_, setInsert_increasing hl⟩
        intro y hy
        rcases mem_setInsert.1 hy with rfl | hy
        · omega
        · exact hz y hy

theorem mem_boundaries : ∀ {ss : List Span}, x ∈ boundaries ss ↔ ∃ s ∈ ss, x = s.left ∨ x = s.right
  | [] => by simp [boundaries]
  | s :: ss => by
    simp only [boundaries, mem_setInsert, mem_boundaries, mem_cons, exists_eq_or_imp, or_assoc]

theorem boundaries_increasing : ∀ ss : List Span, (boundaries ss).Pairwise (· < ·)
  | [] => List.Pairwise.nil
  | _ :: ss => setInsert_increasing (setInsert_increasing (boundaries_increasing ss))

/-- `span_transform_generator(sset,ckygen)` with the `full_cky_generator`. -/
def blockTransform (ss : List Span) : SpanTransform where
  indices := boundaries ss
  increasing := boundaries_increasing ss
  bounded := by
    intro i hi
    obtain ⟨s, -, rfl | rfl⟩ := mem_boundaries.1 hi
    · exact Nat.le_trans s.le s.bound
    · exact s.bound

def blockGenerator (ss : List Span) : CkyGenerator := .spanTransform (blockTransform ss) .full

/-! ## The cell processor -/

/-- A binary edge with the items it was built on. -/
structure BinaryEdge (Tok Info : Type) where
  item : ChartItem Tok Info
  left : ChartItem Tok Info
  right : ChartItem Tok Info
deriving DecidableEq

/-- The grammar, the edge factory and the filter of a `first_experiment_cell_proc`.
A filter keeps edges it was given. -/
structure CellProcessor (Tok Rule Info : Type) (type : Tok → TokenType) where
  gram : Grammar Tok Rule
  ruleLhs : Rule → Tok
  wordInfos : LatticeEdge type → List Info
  unaryInfos : Rule → ChartItem Tok Info → List Info
  binaryInfos : Rule → ChartItem Tok Info → ChartItem Tok Info → List Info
  filter : Span → List (ChartItem Tok Info) → List (ChartItem Tok Info)
  filter_kept : ∀ span l, ∀ x ∈ filter span l, ∃ y ∈ l, y.root = x.root ∧ y.span = x.span

namespace CellProcessor

variable (P : CellProcessor Tok Rule Info type) (lat : List (LatticeNode type))

/-- The words of a span. -/
def seed (span : Span) : List (ChartItem Tok Info) :=
  ((leaves lat).filter fun e => decide (e.span = span)).flatMap fun e =>
    (P.wordInfos e).map fun i => ⟨e.source, e.span, i⟩

/-- `is_lexical`. -/
def isLexical (t : TokenType) : Bool := t == .foreign || t == .native

/-- The unary rules over the words of a span. -/
def unaryEdges (x : ChartItem Tok Info) : List (ChartItem Tok Info) :=
  (P.gram.allRules.filter fun r =>
      P.gram.ruleRhsSize r == 1 && !P.gram.lhsTop r && decide (P.gram.ruleRhs r 0 = x.root)).flatMap fun r =>
    (P.unaryInfos r x).map fun i => ⟨P.ruleLhs r, x.span, i⟩

def introCells (span : Span) : List (ChartItem Tok Info) :=
  P.seed lat span ++ ((P.seed lat span).filter fun x => isLexical (type x.root)).flatMap P.unaryEdges

/-- Every binary rule over every pair of items of two cells. -/
def binaryEdges (l r : List (ChartItem Tok Info)) : List (BinaryEdge Tok Info) :=
  l.flatMap fun a => r.flatMap fun b =>
    (P.gram.allRules.filter fun rule =>
        taken P.gram false rule && decide (getRhs P.gram rule = (a.root, b.root))).flatMap fun rule =>
      (P.binaryInfos rule a b).map fun i => ⟨⟨P.ruleLhs rule, a.span.combine b.span, i⟩, a, b⟩

/-- The edges built over a span from the cells seen at its partitions. -/
def edgesOf (seen : List (List (ChartItem Tok Info) × List (ChartItem Tok Info))) : List (BinaryEdge Tok Info) :=
  seen.flatMap fun c => P.binaryEdges c.1 c.2

def blockProc : CellProc (ChartItem Tok Info) Empty :=
  cellProc fun span seen => P.introCells lat span ++ P.filter span ((P.edgesOf seen).map BinaryEdge.item)

end CellProcessor

def removeVirtuals (type : Tok → TokenType) (chart : Chart (ChartItem Tok Info)) (span : Span) :
    Chart (ChartItem Tok Info) :=
  update chart span ((chart span).filter fun x => decide (type x.root ≠ .virtualTag))

/-! ## Runs -/

/-- What happens in a run: an edge is built, or `block_cky_` returns from the
block over a span. -/
inductive Event (Tok Info : Type) where
  | built (e : BinaryEdge Tok Info)
  | returned (span : Span)
deriving DecidableEq

/-- One call of `cky_mt` or `cky_st`. -/
def CkyRun (numthreads : Nat) (target : Span) (gen : CkyGenerator) (proc : CellProc (ChartItem Tok Info) Empty)
    (chart out : Chart (ChartItem Tok Info)) (log : List Span) : Prop :=
  if numthreads > 1 then
    ∃ s : State Span (List (ChartItem Tok Info)) Empty (Fin numthreads),
      Steps (ckyMt target gen proc) (ckyMtStart numthreads chart) s ∧ s.producer = .returned ∧
        s.pool.store = out ∧ s.pool.started = log
  else ckySt target gen proc chart = some (.ok (out, log))

/-- The edges of a call, span by span. -/
def built (P : CellProcessor Tok Rule Info type) (gen : CkyGenerator) (out : Chart (ChartItem Tok Info))
    (log : List Span) : List (Event Tok Info) :=
  log.flatMap fun span =>
    (P.edgesOf ((gen.partitions span).map fun p => (out p.1, out p.2))).map Event.built

/-- The runs of `block_cky_` over the blocks among some nodes, in order. A word
is passed over; a block is decoded after the blocks below it. -/
inductive BlockCky (P : CellProcessor Tok Rule Info type) (lat : List (LatticeNode type)) (numthreads : Nat) :
    List (LatticeNode type) → Chart (ChartItem Tok Info) → Chart (ChartItem Tok Info) → List (Event Tok Info) → Prop
  | nil {chart : Chart (ChartItem Tok Info)} : BlockCky P lat numthreads [] chart chart []
  | leaf {e : LatticeEdge type} {cs : List (LatticeNode type)} {chart out : Chart (ChartItem Tok Info)}
      {log : List (Event Tok Info)} (h : BlockCky P lat numthreads cs chart out log) :
      BlockCky P lat numthreads (.leaf e :: cs) chart out log
  | block {ds cs : List (LatticeNode type)} {chart inner whole out : Chart (ChartItem Tok Info)} {spansLog : List Span}
      {log log' : List (Event Tok Info)} (hinner : BlockCky P lat numthreads ds chart inner log)
      (hcky : CkyRun numthreads (blockSpan (spans ds)) (blockGenerator (spans ds)) (P.blockProc lat) inner whole spansLog)
      (hrest : BlockCky P lat numthreads cs (removeVirtuals type whole (blockSpan (spans ds))) out log') :
      BlockCky P lat numthreads (.block ds :: cs) chart out
        (log ++ built P (blockGenerator (spans ds)) whole spansLog ++ .returned (blockSpan (spans ds)) :: log')

mutual

/-- `block_cky_` with one thread, on one node. -/
def LatticeNode.blockCkySt (P : CellProcessor Tok Rule Info type) (lat : List (LatticeNode type)) :
    LatticeNode type → Chart (ChartItem Tok Info) → Option (Chart (ChartItem Tok Info) × List (Event Tok Info))
  | .leaf _, chart => some (chart, [])
  | .block ds, chart =>
    (Search.blockCkySt P lat ds chart).bind fun x =>
      match ckySt (blockSpan (spans ds)) (blockGenerator (spans ds)) (P.blockProc lat) x.1 with
      | some (.ok y) =>
        some (removeVirtuals type y.1 (blockSpan (spans ds)),
          x.2 ++ built P (blockGenerator (spans ds)) y.1 y.2 ++ [.returned (blockSpan (spans ds))])
      | _ => none

def blockCkySt (P : CellProcessor Tok Rule Info type) (lat : List (LatticeNode type)) :
    List (LatticeNode type) → Chart (ChartItem Tok Info) → Option (Chart (ChartItem Tok Info) × List (Event Tok Info))
  | [], chart => some (chart, [])
  | c :: cs, chart =>
    (c.blockCkySt P lat chart).bind fun x => (blockCkySt P lat cs x.1).map fun y => (y.1, x.2 ++ y.2)

end

mutual

theorem LatticeNode.blockCkySt_run {P : CellProcessor Tok Rule Info type} {lat : List (LatticeNode type)} :
    ∀ {c : LatticeNode type} {cs : List (LatticeNode type)} {chart mid out : Chart (ChartItem Tok Info)}
      {log log' : List (Event Tok Info)}, c.blockCkySt P lat chart = some (mid, log) →
      BlockCky P lat 1 cs mid out log' → BlockCky P lat 1 (c :: cs) chart out (log ++ log')
  | .leaf _, cs, chart, mid, out, log, log', h, hrest => by
    obtain ⟨rfl, rfl⟩ := h
    exact .leaf hrest
  | .block ds, cs, chart, mid, out, log, log', h, hrest => by
    simp only [LatticeNode.blockCkySt, Option.bind_eq_some_iff] at h
    obtain ⟨⟨inner, l⟩, hinner, h⟩ := h
    split at h
    · rename_i y hcky
      obtain ⟨rfl, rfl⟩ := h
      have hblock : BlockCky P lat 1 (.block ds :: cs) chart out _ := .block (blockCkySt_run hinner) hcky hrest
      simpa using hblock
    · simp at h

/-- The run with one thread is one of the runs. -/
theorem blockCkySt_run {P : CellProcessor Tok Rule Info type} {lat : List (LatticeNode type)} :
    ∀ {cs : List (LatticeNode type)} {chart out : Chart (ChartItem Tok Info)} {log : List (Event Tok Info)},
      blockCkySt P lat cs chart = some (out, log) → BlockCky P lat 1 cs chart out log
  | [], chart, out, log, h => by
    obtain ⟨rfl, rfl⟩ := h
    exact .nil
  | c :: cs, chart, out, log, h => by
    simp only [blockCkySt, Option.bind_eq_some_iff, Option.map_eq_some_iff, Prod.mk.injEq] at h
    obtain ⟨⟨mid, l⟩, hc, ⟨out', l'⟩, hcs, rfl, rfl⟩ := h
    exact LatticeNode.blockCkySt_run hc (blockCkySt_run hcs)

end

/-! ## The spans of a block -/

theorem le_hull_foldl : ∀ (ss : List Span) (s : Span),
    ((ss.foldl Span.hull s).left ≤ s.left ∧ s.right ≤ (ss.foldl Span.hull s).right) ∧
      ∀ t ∈ ss, (ss.foldl Span.hull s).left ≤ t.left ∧ t.right ≤ (ss.foldl Span.hull s).right
  | [], s => by simp
  | u :: ss, s => by
    obtain ⟨⟨hl, hr⟩, hss⟩ := le_hull_foldl ss (s.hull u)
    have hsl : (s.hull u).left ≤ s.left ∧ (s.hull u).left ≤ u.left := ⟨Nat.min_le_left _ _, Nat.min_le_right _ _⟩
    have hsr : s.right ≤ (s.hull u).right ∧ u.right ≤ (s.hull u).right := ⟨Nat.le_max_left _ _, Nat.le_max_right _ _⟩
    refine ⟨⟨Nat.le_trans hl hsl.1, Nat.le_trans hsr.1 hr⟩, ?_⟩
    intro t ht
    rcases mem_cons.1 ht with rfl | ht
    · exact ⟨Nat.le_trans hl hsl.2, Nat.le_trans hsr.2 hr⟩
    · exact hss t ht

variable {ss : List Span}

/-- A child lies within its block. -/
theorem le_blockSpan {t : Span} (ht : t ∈ ss) : (blockSpan ss).left ≤ t.left ∧ t.right ≤ (blockSpan ss).right := by
  cases ss with
  | nil => simp at ht
  | cons s ss =>
    obtain ⟨hs, hss⟩ := le_hull_foldl ss s
    rcases mem_cons.1 ht with rfl | ht
    · exact hs
    · exact hss t ht

theorem hull_foldl_mem : ∀ (ss : List Span) (s : Span),
    (∃ t ∈ s :: ss, (ss.foldl Span.hull s).left = t.left) ∧ ∃ t ∈ s :: ss, (ss.foldl Span.hull s).right = t.right
  | [], s => by simp
  | u :: ss, s => by
    obtain ⟨⟨t, ht, htl⟩, ⟨v, hv, hvr⟩⟩ := hull_foldl_mem ss (s.hull u)
    constructor
    · rcases mem_cons.1 ht with rfl | ht
      · rcases Nat.le_total s.left u.left with hle | hle
        · exact ⟨s, by simp, htl.trans (Nat.min_eq_left hle)⟩
        · exact ⟨u, by simp, htl.trans (Nat.min_eq_right hle)⟩
      · exact ⟨t, by simp [ht], htl⟩
    · rcases mem_cons.1 hv with rfl | hv
      · rcases Nat.le_total s.right u.right with hle | hle
        · exact ⟨u, by simp, hvr.trans (Nat.max_eq_right hle)⟩
        · exact ⟨s, by simp, hvr.trans (Nat.max_eq_left hle)⟩
      · exact ⟨v, by simp [hv], hvr⟩

/-- The ends of a block with children are boundaries of it. -/
theorem blockSpan_mem (h : ss ≠ []) : (blockSpan ss).left ∈ boundaries ss ∧ (blockSpan ss).right ∈ boundaries ss := by
  cases ss with
  | nil => exact absurd rfl h
  | cons s ss =>
    obtain ⟨⟨t, ht, htl⟩, ⟨v, hv, hvr⟩⟩ := hull_foldl_mem ss s
    exact ⟨mem_boundaries.2 ⟨t, ht, .inl htl⟩, mem_boundaries.2 ⟨v, hv, .inr hvr⟩⟩

section Geometry

variable {ss : List Span} {s p q : Span} {len : Nat}

/-- The spans a block is decoded over lie between boundaries of its children. -/
theorem shifts_boundaries (hne : ss ≠ []) (hlen : 1 ≤ len)
    (h : s ∈ (blockGenerator ss).shifts (blockSpan ss) len) :
    s.left ∈ boundaries ss ∧ s.right ∈ boundaries ss ∧ s.left < s.right ∧
      (blockSpan ss).left ≤ s.left ∧ s.right ≤ (blockSpan ss).right := by
  let t := blockTransform ss
  obtain ⟨u, hu, rfl⟩ := mem_map.1 h
  obtain ⟨hulen, -, hur, -⟩ := mem_shiftGenerator hu
  have hend : (blockSpan ss).right ∈ t.indices := (blockSpan_mem hne).2
  have hr : t.index u.right ∈ boundaries ss := t.index_mem hend hur
  have hl : t.index u.left ∈ boundaries ss := t.index_mem hend (Nat.le_trans u.le hur)
  have hinv : t.inverse (t.apply u) = u := t.inverse_apply hur
  have hin : ∀ x ∈ boundaries ss, (blockSpan ss).left ≤ x ∧ x ≤ (blockSpan ss).right := by
    intro x hx
    obtain ⟨c, hc, hx⟩ := mem_boundaries.1 hx
    have hcin := le_blockSpan hc
    have := c.le
    omega
  refine ⟨hl, hr, ?_, (hin _ hl).1, (hin _ hr).2⟩
  -- the ends are different, since the inverse tells them apart
  rcases Nat.lt_or_eq_of_le (t.apply u).le with hlt | heq
  · exact hlt
  · have hl' : (t.inverse (t.apply u)).left = (t.inverse (t.apply u)).right := congrArg t.inverseIndex heq
    rw [hinv] at hl'
    unfold Span.length at hulen
    omega

/-- A partition of such a span splits it at a boundary. -/
theorem partitions_boundaries (hs : s.right ∈ boundaries ss) (hs' : s.left ∈ boundaries ss)
    (h : (p, q) ∈ (blockGenerator ss).partitions s) :
    p.left = s.left ∧ p.right = q.left ∧ q.right = s.right ∧ p.right ∈ boundaries ss ∧
      p.left < p.right ∧ q.left < q.right := by
  let t := blockTransform ss
  obtain ⟨⟨u, v⟩, huv, heq⟩ := mem_map.1 h
  obtain ⟨rfl, rfl⟩ := Prod.mk.inj heq
  obtain ⟨h1, h2, h3, h4, h5⟩ := mem_partitionsGenerator.1 huv
  have hinv : ∀ {i j : Nat}, i < j → j ≤ (t.inverse s).right → t.index i < t.index j := by
    intro i j hij hj
    rcases Nat.lt_or_eq_of_le (t.index_mono (Nat.le_of_lt hij)) with hlt | heq
    · exact hlt
    · have hi := t.inverseIndex_index (Nat.le_trans (Nat.le_of_lt hij) hj) s.bound
      have hj := t.inverseIndex_index hj s.bound
      rw [heq] at hi
      omega
  have hur : u.right ≤ (t.inverse s).right := by
    have hv : v.right = (t.inverse s).right := h3
    omega
  refine ⟨?_, ?_, ?_, ?_, ?_, ?_⟩
  · show t.index u.left = s.left
    rw [h1]
    exact t.index_inverseIndex hs'
  · show t.index u.right = t.index v.left
    rw [h2]
  · show t.index v.right = s.right
    rw [h3]
    exact t.index_inverseIndex hs
  · exact t.index_mem hs hur
  · exact hinv h4 hur
  · exact hinv h5 (Nat.le_of_eq h3)

/-- The whole block is the last span it is decoded over. -/
theorem blockSpan_mem_shifts (hne : ss ≠ []) (hlt : (blockGenerator ss).shiftSizes (blockSpan ss) < ushrtMax) :
    blockSpan ss ∈ (blockGenerator ss).shifts (blockSpan ss) ((blockGenerator ss).shiftSizes (blockSpan ss)) := by
  let t := blockTransform ss
  refine mem_map.2 ⟨t.inverse (blockSpan ss), ?_, ?_⟩
  · have hsize : (t.inverse (blockSpan ss)).length < ushrtMax := hlt
    refine (mem_shiftGenerator_iff ?_).2 ⟨rfl, Nat.le_refl _, Nat.le_refl _⟩
    rintro ⟨hl, hr⟩
    have hl : (t.inverse (blockSpan ss)).left = 0 := hl
    have hr : (t.inverse (blockSpan ss)).right = ushrtMax := hr
    unfold Span.length at hsize
    omega
  · obtain ⟨hl, hr⟩ := blockSpan_mem hne
    exact Span.ext (t.index_inverseIndex hl) (t.index_inverseIndex hr)

end Geometry

/-! ## The chart along a run -/

section Runs

variable {P : CellProcessor Tok Rule Info type} {lat : List (LatticeNode type)} {numthreads : Nat}

theorem introCells_span {span : Span} {x : ChartItem Tok Info} (hx : x ∈ P.introCells lat span) : x.span = span := by
  have hseed : ∀ y ∈ P.seed lat span, y.span = span := by
    intro y hy
    simp only [CellProcessor.seed, mem_flatMap, mem_filter, mem_map, decide_eq_true_eq] at hy
    obtain ⟨e, ⟨-, he⟩, i, -, rfl⟩ := hy
    exact he
  rcases mem_append.1 hx with hx | hx
  · exact hseed x hx
  · obtain ⟨y, hy, hxy⟩ := mem_flatMap.1 hx
    simp only [CellProcessor.unaryEdges, mem_flatMap, mem_map] at hxy
    obtain ⟨r, -, i, -, rfl⟩ := hxy
    exact hseed y (mem_filter.1 hy).1

/-- Where there is anything to introduce there is a word, and no word is a
virtual tag. -/
theorem introCells_word {span : Span} (h : P.introCells lat span ≠ []) :
    ∃ x ∈ P.introCells lat span, type x.root ≠ .virtualTag := by
  have hseed : P.seed lat span ≠ [] := by
    intro hnil
    simp [CellProcessor.introCells, hnil] at h
  obtain ⟨x, hx⟩ := exists_mem_of_ne_nil _ hseed
  refine ⟨x, mem_append_left _ hx, ?_⟩
  simp only [CellProcessor.seed, mem_flatMap, mem_map] at hx
  obtain ⟨e, -, i, -, rfl⟩ := hx
  simp [e.foreign]

theorem mem_binaryEdges {l r : List (ChartItem Tok Info)} {e : BinaryEdge Tok Info} (h : e ∈ P.binaryEdges l r) :
    e.left ∈ l ∧ e.right ∈ r ∧ e.item.span = e.left.span.combine e.right.span := by
  simp only [CellProcessor.binaryEdges, mem_flatMap, mem_map] at h
  obtain ⟨a, ha, b, hb, rule, -, i, -, rfl⟩ := h
  exact ⟨ha, hb, rfl⟩

/-- Items stand in the cell of their span, and a cell with anything in it has
the words of its span. -/
structure Sound (P : CellProcessor Tok Rule Info type) (lat : List (LatticeNode type))
    (chart : Chart (ChartItem Tok Info)) : Prop where
  span : ∀ s, ∀ x ∈ chart s, x.span = s
  words : ∀ s, chart s ≠ [] → ∀ x ∈ P.introCells lat s, type x.root ≠ .virtualTag → x ∈ chart s

theorem Sound.empty : Sound P lat fun _ => [] := ⟨by simp, by simp⟩

variable {chart : Chart (ChartItem Tok Info)}

theorem Sound.removeVirtuals (h : Sound P lat chart) (span : Span) : Sound P lat (removeVirtuals type chart span) := by
  have hcell : ∀ s, ∀ x, x ∈ Search.removeVirtuals type chart span s →
      x ∈ chart s := by
    intro s x hx
    by_cases hs : s = span
    · subst hs
      simp only [Search.removeVirtuals, update_self] at hx
      exact (mem_filter.1 hx).1
    · simpa only [Search.removeVirtuals, update_of_ne hs] using hx
  constructor
  · exact fun s x hx => h.span s x (hcell s x hx)
  · intro s hs x hx hnv
    obtain ⟨y, hy⟩ := exists_mem_of_ne_nil _ hs
    have hmem := h.words s (ne_nil_of_mem (hcell s y hy)) x hx hnv
    by_cases hss : s = span
    · subst hss
      simp only [Search.removeVirtuals, update_self]
      exact mem_filter.2 ⟨hmem, by simpa using hnv⟩
    · simpa only [Search.removeVirtuals, update_of_ne hss] using hmem

variable {out : Chart (ChartItem Tok Info)}

/-- Whatever the number of threads, a call leaves the chart of `cky_st`. -/
theorem CkyRun.st {target : Span} {gen : CkyGenerator} {log : List Span}
    (h : CkyRun numthreads target gen (P.blockProc lat) chart out log) :
    ckySt target gen (P.blockProc lat) chart = some (.ok (out, log)) := by
  unfold CkyRun at h
  split at h
  · obtain ⟨s, hs, hret, rfl, rfl⟩ := h
    exact ckySt_of_returned (cellProc_seesShorter gen _) hs hret
  · exact h

section Call

variable {ss : List Span} {chart out : Chart (ChartItem Tok Info)} {log : List Span}
  (h : CkyRun numthreads (blockSpan ss) (blockGenerator ss) (P.blockProc lat) chart out log)
include h

variable {span : Span}

/-- The spans processed in a call. -/
theorem CkyRun.processed (hspan : span ∈ log) : chart span = [] ∧ ss ≠ [] ∧
    span.left ∈ boundaries ss ∧ span.right ∈ boundaries ss ∧ span.left < span.right ∧
      (blockSpan ss).left ≤ span.left ∧ span.right ≤ (blockSpan ss).right := by
  obtain ⟨hempty, len, h1, hle, hmem⟩ := ((ckySt_processed (cellProc_seesShorter _ _) h.st).2 span).1 hspan
  have hne : ss ≠ [] := by
    intro hnil
    subst hnil
    have hzero : (blockGenerator []).shiftSizes (blockSpan []) = 0 := rfl
    omega
  exact ⟨hempty, hne, shifts_boundaries hne h1 hmem⟩

/-- What a processed cell holds. -/
theorem CkyRun.cell (hspan : span ∈ log) : out span = P.introCells lat span ++ P.filter span
    ((P.edgesOf (((blockGenerator ss).partitions span).map fun p => (out p.1, out p.2))).map BinaryEdge.item) :=
  ckySt_cell h.st hspan

theorem CkyRun.frame (hspan : span ∉ log) : out span = chart span :=
  ckySt_frame (cellProc_seesShorter _ _) h.st hspan

/-- Parts of a processed span are not that span. -/
theorem CkyRun.parts (hspan : span ∈ log) {p q : Span} (hpq : (p, q) ∈ (blockGenerator ss).partitions span) :
    p.left = span.left ∧ p.right = q.left ∧ q.right = span.right ∧ p.right ∈ boundaries ss ∧
      p.left < p.right ∧ q.left < q.right := by
  obtain ⟨-, -, hl, hr, -⟩ := h.processed hspan
  exact partitions_boundaries hr hl hpq

/-- A call keeps the chart sound. The cells a span is built from are shorter, so
the claim for the cells is by strong induction on the length. -/
theorem CkyRun.sound (hs : Sound P lat chart) : Sound P lat out := by
  constructor
  · have hlen : ∀ n, ∀ s : Span, s.length < n → ∀ x ∈ out s, x.span = s := by
      intro n
      induction n with
      | zero => intro s hs; omega
      | succ n ih =>
        intro s hsn x hx
        by_cases hmem : s ∈ log
        · rw [h.cell hmem] at hx
          rcases mem_append.1 hx with hx | hx
          · exact introCells_span hx
          · obtain ⟨y, hy, -, hyx⟩ := P.filter_kept _ _ x hx
            obtain ⟨e, he, rfl⟩ := mem_map.1 hy
            obtain ⟨c, hc, he⟩ := mem_flatMap.1 he
            obtain ⟨⟨p, q⟩, hpq, rfl⟩ := mem_map.1 hc
            obtain ⟨hl, hr, hspan⟩ := mem_binaryEdges he
            obtain ⟨h1, h2, h3, -, h5, h6⟩ := h.parts hmem hpq
            have hp : e.left.span = p := ih p (by unfold Span.length at *; omega) _ hl
            have hq : e.right.span = q := ih q (by unfold Span.length at *; omega) _ hr
            rw [← hyx, hspan, hp, hq]
            exact Span.combine_eq h1 h3
        · rw [h.frame hmem] at hx
          exact hs.span s x hx
    exact fun s => hlen (s.length + 1) s (Nat.lt_succ_self _)
  · intro s hne x hx hnv
    by_cases hmem : s ∈ log
    · rw [h.cell hmem]
      exact mem_append_left _ hx
    · rw [h.frame hmem] at hne ⊢
      exact hs.words s hne x hx hnv

/-- An edge built in a call. -/
theorem CkyRun.built_edge (hs : Sound P lat chart) {e : BinaryEdge Tok Info}
    (he : Event.built e ∈ built P (blockGenerator ss) out log) :
    ∃ span ∈ log, e.item.span = span ∧ e.left ∈ out e.left.span ∧ e.right ∈ out e.right.span ∧
      (e.left.span, e.right.span) ∈ (blockGenerator ss).partitions span := by
  obtain ⟨span, hspan, hmap⟩ := mem_flatMap.1 he
  obtain ⟨e', hedge, heq⟩ := mem_map.1 hmap
  obtain rfl : e' = e := by injection heq
  obtain ⟨c, hc, hpair⟩ := mem_flatMap.1 hedge
  obtain ⟨⟨p, q⟩, hpq, rfl⟩ := mem_map.1 hc
  obtain ⟨hl, hr, hitem⟩ := mem_binaryEdges hpair
  have hp := (h.sound hs).span p _ hl
  have hq := (h.sound hs).span q _ hr
  obtain ⟨h1, h2, h3, -, h5, h6⟩ := h.parts hspan hpq
  refine ⟨span, hspan, ?_, hp ▸ hl, hq ▸ hr, by rw [hp, hq]; exact hpq⟩
  rw [hitem, hp, hq]
  exact Span.combine_eq h1 h3

end Call

/-- The ends of the edge and of its children are boundaries of the block's
children. -/
structure Within (ss : List Span) (e : BinaryEdge Tok Info) : Prop where
  left_left : e.left.span.left ∈ boundaries ss
  left_right : e.left.span.right ∈ boundaries ss
  right_left : e.right.span.left ∈ boundaries ss
  right_right : e.right.span.right ∈ boundaries ss
  left : e.item.span.left ∈ boundaries ss
  right : e.item.span.right ∈ boundaries ss
  proper : e.item.span.left < e.item.span.right
  inside : (blockSpan ss).left ≤ e.item.span.left ∧ e.item.span.right ≤ (blockSpan ss).right

theorem CkyRun.within {log : List Span}
    (h : CkyRun numthreads (blockSpan ss) (blockGenerator ss) (P.blockProc lat) chart out log)
    (hs : Sound P lat chart) {e : BinaryEdge Tok Info} (he : Event.built e ∈ built P (blockGenerator ss) out log) :
    Within ss e := by
  obtain ⟨span, hspan, hitem, -, -, hpq⟩ := h.built_edge hs he
  obtain ⟨-, -, hl, hr, hproper, hin⟩ := h.processed hspan
  obtain ⟨h1, h2, h3, h4, -, -⟩ := h.parts hspan hpq
  constructor
  case left_left => rw [h1]; exact hl
  case left_right => exact h4
  case right_left => rw [← h2]; exact h4
  case right_right => rw [h3]; exact hr
  case left => rw [hitem]; exact hl
  case right => rw [hitem]; exact hr
  case proper => rw [hitem]; exact hproper
  case inside => rw [hitem]; exact hin

/-- **Every edge lies between boundaries of one block.** -/
theorem BlockCky.within {cs : List (LatticeNode type)}
    {log : List (Event Tok Info)} (h : BlockCky P lat numthreads cs chart out log) (hs : Sound P lat chart) :
    Sound P lat out ∧ ∀ e, Event.built e ∈ log → ∃ D ∈ blocks cs, Within (spans D) e := by
  induction h with
  | nil => exact ⟨hs, by simp⟩
  | leaf _ ih => exact ih hs
  | @block ds cs _ _ _ _ _ _ _ hinner hcky hrest ihinner ihrest =>
    obtain ⟨hs1, hin⟩ := ihinner hs
    obtain ⟨hs2, hout⟩ := ihrest ((hcky.sound hs1).removeVirtuals _)
    refine ⟨hs2, ?_⟩
    intro e he
    simp only [append_assoc, mem_append, mem_cons, reduceCtorEq, false_or] at he
    rcases he with he | he | he
    · obtain ⟨D, hD, hw⟩ := hin e he
      exact ⟨D, by simp [blocks_block, hD], hw⟩
    · exact ⟨ds, by simp [blocks_block], hcky.within hs1 he⟩
    · obtain ⟨D, hD, hw⟩ := hout e he
      exact ⟨D, by simp [blocks_block, hD], hw⟩

/-! ## Blocks that have been left -/

/-- No boundary of the block over `ss` lies strictly inside `X`, if `X` lies
properly inside the block. -/
def Clear (ss : List Span) (X : Span) : Prop :=
  (blockSpan ss).left ≤ X.left → X.right ≤ (blockSpan ss).right → X ≠ blockSpan ss →
    ∀ b ∈ boundaries ss, ¬ (X.left < b ∧ b < X.right)

/-- The cells of the spans in `R` have no virtual tags, and are empty only where
there are no words either. -/
def Sealed (P : CellProcessor Tok Rule Info type) (lat : List (LatticeNode type))
    (chart : Chart (ChartItem Tok Info)) (R : List Span) : Prop :=
  ∀ C ∈ R, C.left < C.right → (∀ x ∈ chart C, type x.root ≠ .virtualTag) ∧ (chart C = [] → P.introCells lat C = [])

/-- No child of the edge is a virtual tag over `C`. -/
def NoVirtualOver (type : Tok → TokenType) (C : Span) (e : BinaryEdge Tok Info) : Prop :=
  (e.left.span = C → type e.left.root ≠ .virtualTag) ∧ (e.right.span = C → type e.right.root ≠ .virtualTag)

/-- The spans of the blocks left after `log`, if those of `R` were left before. -/
def leftAfter (R : List Span) : List (Event Tok Info) → List Span
  | [] => R
  | .built _ :: log => leftAfter R log
  | .returned C :: log => leftAfter (C :: R) log

/-- Along `log`, no edge is built on a virtual tag over a block already left. -/
def Untouched (type : Tok → TokenType) (R : List Span) : List (Event Tok Info) → Prop
  | [] => True
  | .built e :: log => (∀ C ∈ R, NoVirtualOver type C e) ∧ Untouched type R log
  | .returned C :: log => Untouched type (C :: R) log

section
omit [DecidableEq Tok]

theorem leftAfter_append : ∀ (R : List Span) (l l' : List (Event Tok Info)),
    leftAfter R (l ++ l') = leftAfter (leftAfter R l) l'
  | _, [], _ => rfl
  | R, .built _ :: l, l' => leftAfter_append R l l'
  | R, .returned C :: l, l' => leftAfter_append (C :: R) l l'

theorem untouched_append : ∀ {R : List Span} {l l' : List (Event Tok Info)}, Untouched type R l →
    Untouched type (leftAfter R l) l' → Untouched type R (l ++ l')
  | _, [], _, _, h' => h'
  | _, .built _ :: _, _, h, h' => ⟨h.1, untouched_append h.2 h'⟩
  | _, .returned _ :: _, _, h, h' => untouched_append (R := _ :: _) h h'

theorem untouched_split : ∀ {R : List Span} (l : List (Event Tok Info)) {l' : List (Event Tok Info)},
    Untouched type R (l ++ l') → Untouched type (leftAfter R l) l'
  | _, [], _, h => h
  | _, .built _ :: l, _, h => untouched_split l h.2
  | R, .returned C :: l, _, h => untouched_split (R := C :: R) l h

theorem untouched_mem : ∀ {R : List Span} {l : List (Event Tok Info)}, Untouched type R l →
    ∀ {e : BinaryEdge Tok Info}, Event.built e ∈ l → ∀ C ∈ R, NoVirtualOver type C e
  | _, [], _, _, he => by simp at he
  | _, .built e' :: l, h, e, he => by
    rcases mem_cons.1 he with heq | he
    · obtain rfl : e = e' := by injection heq
      exact h.1
    · exact untouched_mem h.2 he
  | R, .returned D :: l, h, e, he => by
    rcases mem_cons.1 he with heq | he
    · cases heq
    · exact fun C hC => untouched_mem (R := D :: R) h he C (mem_cons_of_mem D hC)

theorem leftAfter_built (R : List Span) : ∀ (l : List (Event Tok Info)), (∀ x ∈ l, ∃ e, x = Event.built e) →
    leftAfter R l = R
  | [], _ => rfl
  | .built _ :: l, h => leftAfter_built R l fun x hx => h x (mem_cons_of_mem _ hx)
  | .returned C :: _, h => by
    obtain ⟨e, he⟩ := h _ (mem_cons_self ..)
    cases he

theorem untouched_built {R : List Span} : ∀ {l : List (Event Tok Info)},
    (∀ x ∈ l, ∃ e, x = Event.built e ∧ ∀ C ∈ R, NoVirtualOver type C e) → Untouched type R l
  | [], _ => trivial
  | .built e :: _, h => by
    obtain ⟨e', he, hC⟩ := h _ (mem_cons_self ..)
    obtain rfl : e = e' := by injection he
    exact ⟨hC, untouched_built fun x hx => h x (mem_cons_of_mem _ hx)⟩
  | .returned C :: _, h => by
    obtain ⟨e, he, -⟩ := h _ (mem_cons_self ..)
    cases he

end

section Call

variable {ss : List Span} {chart out : Chart (ChartItem Tok Info)} {log : List Span} {R : List Span}
  (h : CkyRun numthreads (blockSpan ss) (blockGenerator ss) (P.blockProc lat) chart out log)
include h

/-- A call does not change the cell of a block already left, unless it is the
block's own span: if the cell is processed again, it has no partitions and no
words. -/
theorem CkyRun.sealed_cell (hsealed : Sealed P lat chart R) (hclear : ∀ C ∈ R, Clear ss C) {C : Span} (hC : C ∈ R)
    (hproper : C.left < C.right) (hne : C ≠ blockSpan ss) : out C = chart C := by
  by_cases hmem : C ∈ log
  · obtain ⟨hempty, -, hl, hr, -, hin⟩ := h.processed hmem
    have hnopart : (blockGenerator ss).partitions C = [] := by
      by_contra hsome
      obtain ⟨⟨p, q⟩, hpq⟩ := exists_mem_of_ne_nil _ hsome
      obtain ⟨h1, h2, h3, h4, h5, h6⟩ := h.parts hmem hpq
      exact hclear C hC hin.1 hin.2 hne p.right h4 ⟨by omega, by omega⟩
    have hnofilter : P.filter C [] = [] := by
      by_contra hsome
      obtain ⟨x, hx⟩ := exists_mem_of_ne_nil _ hsome
      obtain ⟨y, hy, -⟩ := P.filter_kept C [] x hx
      simp at hy
    rw [h.cell hmem, hnopart, (hsealed C hC hproper).2 hempty, hempty]
    simpa [CellProcessor.edgesOf] using hnofilter
  · exact h.frame hmem

/-- The cell of the block is never left empty where there are words. -/
theorem CkyRun.whole_words (hs : Sound P lat chart) (hproper : (blockSpan ss).left < (blockSpan ss).right)
    {x : ChartItem Tok Info} (hx : x ∈ P.introCells lat (blockSpan ss)) (hnv : type x.root ≠ .virtualTag) :
    x ∈ out (blockSpan ss) := by
  refine (h.sound hs).words _ ?_ x hx hnv
  by_cases hmem : blockSpan ss ∈ log
  · rw [h.cell hmem]
    exact ne_nil_of_mem (mem_append_left _ hx)
  · -- the block's own span is one of the spans of the loop, so its cell was not empty
    rw [h.frame hmem]
    intro hempty
    have hne : ss ≠ [] := by
      rintro rfl
      simp [blockSpan] at hproper
    have hlt := (rounds_of_ckySt h.st).1
    refine hmem (((ckySt_processed (cellProc_seesShorter _ _) h.st).2 _).2
      ⟨hempty, _, ?_, Nat.le_refl _, blockSpan_mem_shifts hne hlt⟩)
    obtain ⟨hl, hr⟩ := blockSpan_mem hne
    have hmono := (blockTransform ss).inverseIndex_mono (Nat.le_of_lt hproper)
    have hdiff : (blockTransform ss).inverseIndex (blockSpan ss).left ≠
        (blockTransform ss).inverseIndex (blockSpan ss).right := by
      intro heq
      have := congrArg (blockTransform ss).index heq
      rw [(blockTransform ss).index_inverseIndex hl, (blockTransform ss).index_inverseIndex hr] at this
      omega
    show 1 ≤ (blockTransform ss).inverseIndex (blockSpan ss).right - (blockTransform ss).inverseIndex (blockSpan ss).left
    omega

/-- Leaving the block: what was sealed stays sealed, and the block's span is. -/
theorem CkyRun.leave (hs : Sound P lat chart) (hsealed : Sealed P lat chart R) (hclear : ∀ C ∈ R, Clear ss C) :
    Sealed P lat (removeVirtuals type out (blockSpan ss)) (blockSpan ss :: R) := by
  intro C hC hproper
  by_cases hself : C = blockSpan ss
  · subst hself
    simp only [removeVirtuals, update_self]
    refine ⟨fun x hx => by simpa using (mem_filter.1 hx).2, ?_⟩
    intro hnil
    by_contra hwords
    obtain ⟨x, hx, hnv⟩ := introCells_word hwords
    have hmem := h.whole_words hs hproper hx hnv
    have hkept : x ∈ (out (blockSpan ss)).filter fun x => decide (type x.root ≠ .virtualTag) :=
      mem_filter.2 ⟨hmem, by simpa using hnv⟩
    rw [hnil] at hkept
    simp at hkept
  · have hR : C ∈ R := by
      rcases mem_cons.1 hC with rfl | hC
      · exact absurd rfl hself
      · exact hC
    simp only [removeVirtuals, update_of_ne hself]
    rw [h.sealed_cell hsealed hclear hR hproper hself]
    exact hsealed C hR hproper

/-- The edges of the call do not use a virtual tag over a block already left. -/
theorem CkyRun.untouched (hs : Sound P lat chart) (hsealed : Sealed P lat chart R) (hclear : ∀ C ∈ R, Clear ss C) :
    Untouched type R (built P (blockGenerator ss) out log) := by
  have hbuilt : ∀ x ∈ built P (blockGenerator ss) out log, ∃ e, x = Event.built e := by
    intro x hx
    obtain ⟨span, -, hx⟩ := mem_flatMap.1 hx
    obtain ⟨e, -, rfl⟩ := mem_map.1 hx
    exact ⟨e, rfl⟩
  refine untouched_built fun x hx => ?_
  obtain ⟨e, rfl⟩ := hbuilt x hx
  obtain ⟨span, hspan, -, hl, hr, hpq⟩ := h.built_edge hs hx
  obtain ⟨-, -, -, -, -, hin⟩ := h.processed hspan
  obtain ⟨h1, h2, h3, -, h5, h6⟩ := h.parts hspan hpq
  refine ⟨e, rfl, fun C hC => ⟨?_, ?_⟩⟩
  · rintro rfl
    have hne : e.left.span ≠ blockSpan ss := by
      intro heq
      have := congrArg Span.right heq
      omega
    rw [h.sealed_cell hsealed hclear hC h5 hne] at hl
    exact (hsealed _ hC h5).1 _ hl
  · rintro rfl
    have hne : e.right.span ≠ blockSpan ss := by
      intro heq
      have := congrArg Span.left heq
      omega
    rw [h.sealed_cell hsealed hclear hC h6 hne] at hr
    exact (hsealed _ hC h6).1 _ hr

end Call

/-- **A run keeps the blocks it has left sealed.** -/
theorem BlockCky.untouched {cs : List (LatticeNode type)}
    {log : List (Event Tok Info)} (h : BlockCky P lat numthreads cs chart out log) : ∀ {R : List Span},
    Sound P lat chart → Sealed P lat chart R →
    (∀ D ∈ blocks cs, ∀ X, X ∈ R ∨ (∃ B ∈ blocks cs, blockSpan (spans B) = X) → Clear (spans D) X) →
    Sealed P lat out (leftAfter R log) ∧ Untouched type R log ∧
      ∀ X ∈ leftAfter R log, X ∈ R ∨ ∃ B ∈ blocks cs, blockSpan (spans B) = X := by
  induction h with
  | nil =>
    intro R _ hsealed _
    exact ⟨hsealed, trivial, fun X hX => .inl hX⟩
  | leaf _ ih =>
    intro R hs hsealed hclear
    exact ih hs hsealed hclear
  | @block ds cs chart inner whole out spansLog log log' hinner hcky hrest ihinner ihrest =>
    intro R hs hsealed hclear
    -- the blocks below this one
    have hclear1 : ∀ D ∈ blocks ds, ∀ X, X ∈ R ∨ (∃ B ∈ blocks ds, blockSpan (spans B) = X) → Clear (spans D) X := by
      intro D hD X hX
      refine hclear D (by simp [blocks_block, hD]) X (hX.imp_right ?_)
      rintro ⟨B, hB, rfl⟩
      exact ⟨B, by simp [blocks_block, hB], rfl⟩
    obtain ⟨hsealed1, huntouched1, hleft1⟩ := ihinner hs hsealed hclear1
    obtain ⟨hs1, -⟩ := hinner.within hs
    -- this block
    have hclear2 : ∀ C ∈ leftAfter R log, Clear (spans ds) C := by
      intro C hC
      refine hclear ds (by simp [blocks_block]) C ((hleft1 C hC).imp_right ?_)
      rintro ⟨B, hB, rfl⟩
      exact ⟨B, by simp [blocks_block, hB], rfl⟩
    have hsealed2 := hcky.leave hs1 hsealed1 hclear2
    have huntouched2 := hcky.untouched hs1 hsealed1 hclear2
    have hleftbuilt : leftAfter (leftAfter R log) (built P (blockGenerator (spans ds)) whole spansLog) =
        leftAfter R log := by
      apply leftAfter_built
      intro x hx
      obtain ⟨span, -, hx⟩ := mem_flatMap.1 hx
      obtain ⟨e, -, rfl⟩ := mem_map.1 hx
      exact ⟨e, rfl⟩
    -- the blocks after it
    have hcover : ∀ X ∈ blockSpan (spans ds) :: leftAfter R log,
        X ∈ R ∨ ∃ B ∈ blocks (.block ds :: cs), blockSpan (spans B) = X := by
      intro X hX
      rcases mem_cons.1 hX with rfl | hX
      · exact .inr ⟨ds, by simp [blocks_block], rfl⟩
      · refine (hleft1 X hX).imp_right ?_
        rintro ⟨B, hB, rfl⟩
        exact ⟨B, by simp [blocks_block, hB], rfl⟩
    have hclear3 : ∀ D ∈ blocks cs, ∀ X, X ∈ blockSpan (spans ds) :: leftAfter R log ∨
        (∃ B ∈ blocks cs, blockSpan (spans B) = X) → Clear (spans D) X := by
      intro D hD X hX
      refine hclear D (by simp [blocks_block, hD]) X ?_
      rcases hX with hX | ⟨B, hB, rfl⟩
      · exact hcover X hX
      · exact .inr ⟨B, by simp [blocks_block, hB], rfl⟩
    obtain ⟨hsealed3, huntouched3, hleft3⟩ := ihrest ((hcky.sound hs1).removeVirtuals _) hsealed2 hclear3
    have hafter : leftAfter R (log ++ built P (blockGenerator (spans ds)) whole spansLog ++
        .returned (blockSpan (spans ds)) :: log') = leftAfter (blockSpan (spans ds) :: leftAfter R log) log' := by
      rw [leftAfter_append, leftAfter_append, hleftbuilt]
      rfl
    refine ⟨by rw [hafter]; exact hsealed3, ?_, ?_⟩
    · refine untouched_append (untouched_append huntouched1 huntouched2) ?_
      rw [leftAfter_append, hleftbuilt]
      exact huntouched3
    · intro X hX
      rw [hafter] at hX
      rcases hleft3 X hX with hX | ⟨B, hB, rfl⟩
      · exact hcover X hX
      · exact .inr ⟨B, by simp [blocks_block, hB], rfl⟩

end Runs

/-! ## Blocks as bracketing constraints -/

/-- One span inside the other, or the two apart. -/
def NestedOrDisjoint (s t : Span) : Prop :=
  (s.left ≤ t.left ∧ t.right ≤ s.right) ∨ (t.left ≤ s.left ∧ s.right ≤ t.right) ∨ s.right ≤ t.left ∨ t.right ≤ s.left

/-- The blocks among and below the nodes are pairwise nested or disjoint. -/
def Laminar (cs : List (LatticeNode type)) : Prop :=
  ∀ D ∈ blocks cs, ∀ X ∈ blocks cs, NestedOrDisjoint (blockSpan (spans D)) (blockSpan (spans X))

/-- No child of a block starts or ends strictly inside a block that lies properly
within it. -/
def WellBracketed (cs : List (LatticeNode type)) : Prop :=
  ∀ D ∈ blocks cs, ∀ X ∈ blocks cs, Clear (spans D) (blockSpan (spans X))

instance : Decidable (NestedOrDisjoint s t) := inferInstanceAs (Decidable (_ ∨ _))

instance {ss : List Span} {X : Span} : Decidable (Clear ss X) := inferInstanceAs (Decidable (_ → _))

instance {cs : List (LatticeNode type)} : Decidable (Laminar cs) :=
  inferInstanceAs (Decidable (∀ D ∈ blocks cs, ∀ X ∈ blocks cs, _))

instance {cs : List (LatticeNode type)} : Decidable (WellBracketed cs) :=
  inferInstanceAs (Decidable (∀ D ∈ blocks cs, ∀ X ∈ blocks cs, _))

omit [DecidableEq Tok] in
/-- An edge between boundaries of a block does not cross another one. -/
theorem Within.not_crossing {e : BinaryEdge Tok Info} (h : Within ss e) {X : Span}
    (hnested : NestedOrDisjoint (blockSpan ss) X) (hclear : Clear ss X) : e.item.span.crossing X = false := by
  have hin := h.inside
  have hproper := h.proper
  -- unless the block lies within `X`, neither end of the edge is strictly inside `X`
  have hends : (X.left ≤ (blockSpan ss).left ∧ (blockSpan ss).right ≤ X.right) ∨
      (¬ (X.left < e.item.span.left ∧ e.item.span.left < X.right) ∧
        ¬ (X.left < e.item.span.right ∧ e.item.span.right < X.right)) := by
    by_cases hX : X = blockSpan ss
    · exact .inl ⟨Nat.le_of_eq (congrArg Span.left hX), Nat.le_of_eq (congrArg Span.right hX).symm⟩
    · rcases hnested with ⟨hl, hr⟩ | hout | hapart
      · exact .inr ⟨hclear hl hr hX _ h.left, hclear hl hr hX _ h.right⟩
      · exact .inl hout
      · right
        omega
  have hXle := X.le
  unfold Span.crossing
  simp only [ge_iff_le]
  split
  · rfl
  · simp only [Bool.and_eq_false_iff, Bool.not_eq_false', Bool.and_eq_true, beq_iff_eq]
    omega

/-- **Blocks bound the search.** In every run of `block_cky_` on the root of a
lattice, every binary edge and its children lie between boundaries of the
children of one block. If the blocks are nested or disjoint and no child of a
block starts or ends strictly inside a block within it, no edge crosses a block,
and no edge built after a block has been left has a virtual tag over that
block's span for a child. -/
theorem blockCky_respects_blocks (P : CellProcessor Tok Rule Info type) (lat : List (LatticeNode type))
    (numthreads : Nat) {out : Chart (ChartItem Tok Info)} {log : List (Event Tok Info)}
    (h : BlockCky P lat numthreads [.block lat] (fun _ => []) out log) :
    (∀ e, Event.built e ∈ log → ∃ D ∈ blocks [.block lat], Within (spans D) e) ∧
    (Laminar [.block lat] → WellBracketed [.block lat] →
      (∀ e, Event.built e ∈ log → ∀ X ∈ blocks [.block lat], e.item.span.crossing (blockSpan (spans X)) = false) ∧
      ∀ pre C post, log = pre ++ Event.returned C :: post → ∀ e, Event.built e ∈ post → NoVirtualOver type C e) := by
  have hwithin := (h.within Sound.empty).2
  refine ⟨hwithin, fun hlaminar hwell => ⟨?_, ?_⟩⟩
  · intro e he X hX
    obtain ⟨D, hD, hw⟩ := hwithin e he
    exact hw.not_crossing (hlaminar D hD X hX) (hwell D hD X hX)
  · intro pre C post hlog e he
    have hclear : ∀ D ∈ blocks [.block lat], ∀ X, X ∈ ([] : List Span) ∨
        (∃ B ∈ blocks [.block lat], blockSpan (spans B) = X) → Clear (spans D) X := by
      rintro D hD X (hX | ⟨B, hB, rfl⟩)
      · simp at hX
      · exact hwell D hD B hB
    have hsealed : Sealed P lat (fun _ => []) [] := fun C hC => by simp at hC
    obtain ⟨-, huntouched, -⟩ := h.untouched Sound.empty hsealed hclear
    rw [hlog] at huntouched
    have hpost : Untouched type (C :: leftAfter [] pre) post := untouched_split pre huntouched
    exact untouched_mem hpost he C (mem_cons_self ..)

/-- Words below 10, tags from there on. -/
def wordOrTag (t : Nat) : TokenType := if t < 10 then .foreign else .tag

/-- One rule: the tag 10 over the words 1 and 3. -/
def oneRule : CellProcessor Nat Unit Unit wordOrTag where
  gram :=
    { allRules := [()], ruleRhsSize := fun _ => 2, ruleRhs := fun _ i => if i = 0 then 1 else 3, lhsTop := fun _ => false }
  ruleLhs := fun _ => 10
  wordInfos := fun _ => [()]
  unaryInfos := fun _ _ => []
  binaryInfos := fun _ _ _ => [()]
  filter := fun _ l => l
  filter_kept := fun _ _ x hx => ⟨x, hx, rfl, rfl⟩

/-- The word `w` over `[l,r]`. -/
def word (w l r : Nat) (hw : w < 10) (hle : l ≤ r) (hb : r ≤ ushrtMax) : LatticeNode wordOrTag :=
  .leaf ⟨⟨l, r, hle, hb⟩, w, if_pos hw⟩

/-- A block over `[0,2]` followed by the word 3. -/
def bracketed : List (LatticeNode wordOrTag) :=
  [.block [word 0 0 1 (by decide) (by decide) (by decide), word 1 1 2 (by decide) (by decide) (by decide)],
    word 3 2 3 (by decide) (by decide) (by decide)]

/-- The same with a word over `[1,3]`, which starts inside the block. -/
def overlapping : List (LatticeNode wordOrTag) := bracketed ++ [word 2 1 3 (by decide) (by decide) (by decide)]

theorem blockCky_respects_blocks_bracketed : ∃ out log, BlockCky oneRule bracketed 1 [.block bracketed] (fun _ => []) out log ∧
    Laminar [.block bracketed] ∧ WellBracketed [.block bracketed] ∧
    ∀ e, Event.built e ∈ log → ∀ X ∈ blocks [.block bracketed], e.item.span.crossing (blockSpan (spans X)) = false := by
  obtain ⟨⟨out, log⟩, hrun⟩ : ∃ r, blockCkySt oneRule bracketed [.block bracketed] (fun _ => []) = some r :=
    Option.isSome_iff_exists.1 (by decide)
  have hlam : Laminar [.block bracketed] := by decide
  have hwell : WellBracketed [.block bracketed] := by decide
  have h := blockCky_respects_blocks oneRule bracketed 1 (blockCkySt_run hrun)
  exact ⟨out, log, blockCkySt_run hrun, hlam, hwell, (h.2 hlam hwell).1⟩

/-- The edge over `[1,3]` built on the word 1 inside the block and the word 3
after it. -/
def crossingEdge : BinaryEdge Nat Unit :=
  ⟨⟨10, ⟨1, 3, by decide, by decide⟩, ()⟩, ⟨1, ⟨1, 2, by decide, by decide⟩, ()⟩, ⟨3, ⟨2, 3, by decide, by decide⟩, ()⟩⟩

/-- With nested blocks only, an edge may cross a block: a word that starts
inside the block makes that place a boundary of the enclosing one. -/
theorem blockCky_crosses_overlapping : Laminar [.block overlapping] ∧
    ∃ out log, BlockCky oneRule overlapping 1 [.block overlapping] (fun _ => []) out log ∧
      Event.built crossingEdge ∈ log ∧
      ∃ X ∈ blocks [.block overlapping], crossingEdge.item.span.crossing (blockSpan (spans X)) = true := by
  refine ⟨by decide, ?_⟩
  obtain ⟨⟨out, log⟩, hrun⟩ : ∃ r, blockCkySt oneRule overlapping [.block overlapping] (fun _ => []) = some r :=
    Option.isSome_iff_exists.1 (by decide)
  have hbuilt : ((blockCkySt oneRule overlapping [.block overlapping] (fun _ => [])).map fun r =>
      decide (Event.built crossingEdge ∈ r.2)) = some true := by decide
  rw [hrun] at hbuilt
  exact ⟨out, log, blockCkySt_run hrun, by simpa using hbuilt, by decide⟩

/-! ## What is left in the chart -/

section Closure

variable (P : CellProcessor Tok Rule Info type) (lat : List (LatticeNode type)) (target : Span) (gen : CkyGenerator)

/-- A span that the loop over the lengths comes to. -/
def LoopSpan (span : Span) : Prop := ∃ len, 1 ≤ len ∧ len ≤ gen.shiftSizes target ∧ span ∈ gen.shifts target len

/-- What the rules give over the spans of the loop. -/
inductive CkyItem : Span → ChartItem Tok Info → Prop
  | intro {span : Span} {x : ChartItem Tok Info} (hspan : LoopSpan target gen span) (h : x ∈ P.introCells lat span) :
      CkyItem span x
  | binary {span p q : Span} {y z : ChartItem Tok Info} {e : BinaryEdge Tok Info} (hspan : LoopSpan target gen span)
      (hpart : (p, q) ∈ gen.partitions span) (hy : CkyItem p y) (hz : CkyItem q z) (h : e ∈ P.binaryEdges [y] [z]) :
      CkyItem span e.item

variable {P lat target gen}

theorem mem_binaryEdges_iff {l r : List (ChartItem Tok Info)} {e : BinaryEdge Tok Info} :
    e ∈ P.binaryEdges l r ↔ ∃ y ∈ l, ∃ z ∈ r, e ∈ P.binaryEdges [y] [z] := by
  simp [CellProcessor.binaryEdges]

/-- **cky_st and every run of cky_mt that returns compute what the rules give**: nothing else if the filter only drops
edges, and all of it if the filter drops none. -/
theorem ckyRun_closure {numthreads : Nat} {out : Chart (ChartItem Tok Info)} {log : List Span}
    (h : CkyRun numthreads target gen (P.blockProc lat) (fun _ => []) out log) :
    ((∀ span l, P.filter span l ⊆ l) → ∀ span, ∀ x ∈ out span, CkyItem P lat target gen span x) ∧
    ((∀ span l, l ⊆ P.filter span l) → ∀ span x, CkyItem P lat target gen span x → x ∈ out span) := by
  have hlog := (ckySt_processed (cellProc_seesShorter gen _) h.st).2
  constructor
  · intro hdrops span x hx
    -- the parts of a span are shorter, in the coordinates of the generator
    induction hn : gen.shiftSizes span using Nat.strong_induction_on generalizing span x with
    | h n ih =>
      by_cases hspan : span ∈ log
      · have hloop := ((hlog span).1 hspan).2
        rw [ckySt_cell h.st hspan, mem_append] at hx
        rcases hx with hx | hx
        · exact .intro hloop hx
        · obtain ⟨e, he, rfl⟩ := mem_map.1 (hdrops _ _ hx)
          obtain ⟨c, hc, he⟩ := mem_flatMap.1 he
          obtain ⟨⟨p, q⟩, hpq, rfl⟩ := mem_map.1 hc
          obtain ⟨y, hy, z, hz, he⟩ := mem_binaryEdges_iff.1 he
          obtain ⟨hp, hq⟩ := CkyGenerator.shiftSizes_partitions hpq
          exact .binary hloop hpq (ih _ (hn ▸ hp) p y hy rfl) (ih _ (hn ▸ hq) q z hz rfl) he
      · rw [ckySt_frame (cellProc_seesShorter gen _) h.st hspan] at hx
        cases hx
  · intro hkeeps span x hx
    induction hx with
    | intro hspan hx =>
      rw [ckySt_cell h.st ((hlog _).2 ⟨rfl, hspan⟩)]
      exact mem_append_left _ hx
    | @binary span p q y z e hspan hpq _ _ he hy hz =>
      rw [ckySt_cell h.st ((hlog _).2 ⟨rfl, hspan⟩)]
      refine mem_append_right _ (hkeeps _ _ (mem_map_of_mem (mem_flatMap.2 ⟨_, mem_map_of_mem hpq, ?_⟩)))
      exact mem_binaryEdges_iff.2 ⟨y, hy, z, hz, he⟩

end Closure

theorem ckyRun_closure_bracketed : ∃ out log,
    CkyRun 1 (blockSpan (spans bracketed)) (.plain .full) (oneRule.blockProc bracketed) (fun _ => []) out log ∧
    ∀ span x, x ∈ out span ↔ CkyItem oneRule bracketed (blockSpan (spans bracketed)) (.plain .full) span x := by
  obtain ⟨r, h⟩ : ∃ r, ckySt (blockSpan (spans bracketed)) (.plain .full) (oneRule.blockProc bracketed) (fun _ => []) =
    some (.ok r) := ⟨_, rfl⟩
  have hrun : CkyRun 1 _ _ (oneRule.blockProc bracketed) (fun _ => []) r.1 r.2 := h
  obtain ⟨hsound, hcomplete⟩ := ckyRun_closure hrun
  have hsame : ∀ span l, l ⊆ oneRule.filter span l := fun _ _ => Subset.refl _
  exact ⟨r.1, r.2, hrun, fun span x => ⟨hsound (fun _ _ => Subset.refl _) span x, hcomplete hsame span x⟩⟩

/-! ## Runs with many threads and with one -/

section Ends

variable {P : CellProcessor Tok Rule Info type} {lat : List (LatticeNode type)}

/-- The counter of the lengths gets past those of the block. -/
def Ends (ds : List (LatticeNode type)) : Prop := (blockGenerator (spans ds)).shiftSizes (blockSpan (spans ds)) < ushrtMax

omit [DecidableEq Tok] in
theorem ckySt_ok {target : Span} {gen : CkyGenerator} (h : gen.shiftSizes target < ushrtMax)
    (proc : CellProc (ChartItem Tok Info) Empty) (chart : Chart (ChartItem Tok Info)) :
    ∃ r, ckySt target gen proc chart = some (.ok r) := by
  unfold ckySt lengths
  rw [if_pos h, Option.map_some]
  cases foldlM (ckyLength target gen proc) (chart, []) (range' 1 (gen.shiftSizes target)) with
  | error e => exact e.elim
  | ok r => exact ⟨r, rfl⟩

mutual

theorem LatticeNode.isSome_blockCkySt : ∀ (c : LatticeNode type) (chart : Chart (ChartItem Tok Info)),
    (c.blockCkySt P lat chart).isSome ↔ ∀ D ∈ c.blocks, Ends D
  | .leaf _, chart => by simp [LatticeNode.blockCkySt, LatticeNode.blocks]
  | .block ds, chart => by
    rw [LatticeNode.blocks, forall_mem_cons, ← isSome_blockCkySt ds chart, LatticeNode.blockCkySt]
    cases Search.blockCkySt P lat ds chart with
    | none => simp
    | some x =>
      by_cases hends : Ends ds
      · obtain ⟨r, hr⟩ := ckySt_ok hends (P.blockProc lat) x.1
        simp [hr, hends]
      · have hnone : lengths ((blockGenerator (spans ds)).shiftSizes _) = none := if_neg hends
        simp [ckySt, hnone, hends]

theorem isSome_blockCkySt : ∀ (cs : List (LatticeNode type)) (chart : Chart (ChartItem Tok Info)),
    (blockCkySt P lat cs chart).isSome ↔ ∀ D ∈ blocks cs, Ends D
  | [], chart => by simp [blockCkySt, blocks]
  | c :: cs, chart => by
    rw [blocks, forall_mem_append, ← c.isSome_blockCkySt chart, blockCkySt]
    cases c.blockCkySt P lat chart with
    | none => simp
    | some x => simp [← isSome_blockCkySt cs x.1]

end

/-- **What `block_cky_` leaves is the same whatever its threads do**, and with the same edges in the same order; with
one thread it ends exactly if each block does. -/
theorem blockCky_exact (P : CellProcessor Tok Rule Info type) (lat cs : List (LatticeNode type))
    (chart : Chart (ChartItem Tok Info)) :
    (∀ numthreads out log, BlockCky P lat numthreads cs chart out log → blockCkySt P lat cs chart = some (out, log)) ∧
    ((∃ out log, BlockCky P lat 1 cs chart out log) ↔ ∀ D ∈ blocks cs, Ends D) := by
  have hst : ∀ numthreads out log, BlockCky P lat numthreads cs chart out log →
      blockCkySt P lat cs chart = some (out, log) := by
    intro numthreads out log h
    induction h with
    | nil => rfl
    | leaf _ ih => simp [blockCkySt, LatticeNode.blockCkySt, ih]
    | block _ hcky _ ihinner ihrest => simp [blockCkySt, LatticeNode.blockCkySt, ihinner, hcky.st, ihrest]
  refine ⟨hst, ?_⟩
  rw [← isSome_blockCkySt cs chart, Option.isSome_iff_exists]
  exact ⟨fun ⟨out, log, h⟩ => ⟨_, hst 1 out log h⟩, fun ⟨r, h⟩ => ⟨r.1, r.2, blockCkySt_run h⟩⟩

end Ends

end Sbmt.Search
