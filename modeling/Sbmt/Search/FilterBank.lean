import Sbmt.Search.BlockCky

/-!
# parse_cky over a filter_bank

| here | there |
| --- | --- |
| `BinarizedGrammar` | a grammar of the itg-binarizer (`search/span_filter_interface.hpp:35-88`) |
| `insertRep`, `reps` | `signature_index_map` (`grammar/sorted_rhs_map.hpp:355-447`) |
| `rulesWith` | `sorted_rhs_map::rules`, `toplevel_rules` on a right-hand side of two (`:284-340`) |
| `visit`, `unaryApplications` | `unary_applications`: the vertices of its graph (`search/unary_applications.hpp:221-430`) |
| `SpanFilter` | a `span_filter_p` that rejects nothing; `reset` after `pf.reset()` |
| `finalize`, `applyRules`, `applyToplevelRules` | the members of `filter_bank` (`search/impl/filter_bank.ipp:40-354`) |
| `parseCky` | `parse_cky::operator()` with the `full_cky_generator` (`search/parse_order.hpp:33-114`) |

An edge equivalence is told by the root, the span and the info of its edges, and
a cell lists the equivalences over a span. `none` stands for a run that has no
result: the loop over the lengths does not end, or a null filter is used.
-/

namespace Sbmt.Search

open Sbmt.Forest (TokenType)
open Function
open List
open CellProcessor (isLexical)

variable {Tok Rule Info S : Type} [DecidableEq Tok] [DecidableEq Info] [LinearOrder S] {type : Tok → TokenType}

/-- A binarized grammar whose unary rules are over foreign words, toplevel rules
apart. A left-hand side is not a word, and "no rule can have a top-level as its
constituent". -/
structure BinarizedGrammar (Tok Rule : Type) (type : Tok → TokenType) extends Grammar Tok Rule where
  ruleLhs : Rule → Tok
  lhsTop_iff : ∀ r ∈ allRules, lhsTop r = true ↔ type (ruleLhs r) = .top
  lhs_not_lexical : ∀ r ∈ allRules, isLexical (type (ruleLhs r)) = false
  rhs_size : ∀ r ∈ allRules, ruleRhsSize r = 1 ∨ ruleRhsSize r = 2
  rhs_not_top : ∀ r ∈ allRules, ∀ i < ruleRhsSize r, type (ruleRhs r i) ≠ .top
  unary_foreign : ∀ r ∈ allRules, ruleRhsSize r = 1 → lhsTop r = false → type (ruleRhs r 0) = .foreign

/-- What a `filter_bank` is built on. A rule applied to its constituents makes
edges that differ in their infos, one at least. -/
structure FilterBank (Tok Rule Info S : Type) (type : Tok → TokenType) where
  gram : BinarizedGrammar Tok Rule type
  ruleHeuristic : Rule → S
  unaryInfos : Rule → ChartItem Tok Info → List Info
  binaryInfos : Rule → ChartItem Tok Info → ChartItem Tok Info → List Info
  unaryInfos_ne : ∀ r x, unaryInfos r x ≠ []
  binaryInfos_ne : ∀ r x y, binaryInfos r x y ≠ []
  totalSpan : Span

inductive SpanFilter (Tok Info : Type) where
  | active (edges : List (ChartItem Tok Info))
  | reset

/-- What a run does, as far as the order of calls is concerned. -/
inductive BankEvent where
  | applied (first second : Span)
  | finalized (s : Span)
deriving DecidableEq

structure BankState (Tok Info : Type) where
  chart : Chart (ChartItem Tok Info)
  filters : Span → Option (SpanFilter Tok Info)
  log : List BankEvent

/-! ## Cells -/

variable (cell : List (ChartItem Tok Info))

def insertEdge (x : ChartItem Tok Info) : List (ChartItem Tok Info) :=
  if x ∈ cell then cell else cell ++ [x]

def insertEdges (xs : List (ChartItem Tok Info)) : List (ChartItem Tok Info) :=
  xs.foldl insertEdge cell

variable {cell} in
theorem mem_insertEdge {x y : ChartItem Tok Info} :
    y ∈ insertEdge cell x ↔ y ∈ cell ∨ y = x := by
  unfold insertEdge
  split
  · constructor
    · exact .inl
    · rintro (h | rfl)
      · exact h
      · assumption
  · simp

@[simp] theorem mem_insertEdges {xs cell : List (ChartItem Tok Info)} {y : ChartItem Tok Info} :
    y ∈ insertEdges cell xs ↔ y ∈ cell ∨ y ∈ xs := by
  unfold insertEdges
  induction xs generalizing cell with
  | nil => simp
  | cons x xs ih =>
    rw [foldl_cons, ih, mem_insertEdge, mem_cons, or_assoc]

/-- The roots of the cells over a span. -/
def roots : List Tok := (cell.map ChartItem.root).dedup

/-- `chart.edges(root, span)`. -/
def edgesWith (root : Tok) (cell : List (ChartItem Tok Info)) : List (ChartItem Tok Info) :=
  cell.filter fun x => decide (x.root = root)

/-! ## Signatures -/

variable (gram : Grammar Tok Rule)

/-- `sig_map.insert`: one rule for each right-hand side. -/
def insertRep (toplevel : Bool) (sigMap : List Rule) (r : Rule) : List Rule :=
  if taken gram toplevel r && sigMap.all fun r' => decide (getRhs gram r' ≠ getRhs gram r) then sigMap ++ [r]
  else sigMap

def sigMap (toplevel : Bool) : List Rule :=
  gram.allRules.foldl (insertRep gram toplevel) []

def reps (toplevel : Bool) (tok : Tok) : List Rule :=
  (sigMap gram toplevel).filter fun r => decide (gram.ruleRhs r 0 = tok)

namespace FilterBank

variable (P : FilterBank Tok Rule Info S type)

/-! ## Edges -/

/-- `create_edge` for a rule over one edge. -/
def createUnary (r : Rule) (x : ChartItem Tok Info) : List (ChartItem Tok Info) :=
  (P.unaryInfos r x).map fun i => ⟨P.gram.ruleLhs r, x.span, i⟩

/-- `create_edge` for a rule over two edges. -/
def createBinary (r : Rule) (x y : ChartItem Tok Info) : List (ChartItem Tok Info) :=
  (P.binaryInfos r x y).map fun i => ⟨P.gram.ruleLhs r, x.span.combine y.span, i⟩

variable (toplevel : Bool)

/-- `gram.unary_rules(root)` and `gram.toplevel_unary_rules(root)`. -/
def unaryRules (root : Tok) : List Rule :=
  P.gram.allRules.filter fun r =>
    P.gram.ruleRhsSize r == 1 && P.gram.lhsTop r == toplevel && decide (P.gram.ruleRhs r 0 = root)

/-- Every unary rule over an edge. -/
def unaryEdges (x : ChartItem Tok Info) : List (ChartItem Tok Info) :=
  (P.unaryRules toplevel x.root).flatMap fun r => P.createUnary r x

/-- `apply_rules` of a filter that rejects nothing. -/
def filterEdges (rules : List Rule) (er1 er2 : List (ChartItem Tok Info)) : List (ChartItem Tok Info) :=
  rules.flatMap fun r => er1.flatMap fun x => er2.flatMap fun y => P.createBinary r x y

variable (first second : List (ChartItem Tok Info))

/-- The calls of the filter's `apply_rules` for two cells: one for each root of
the first and each signature that starts with it. -/
def applications :
    List (List Rule × List (ChartItem Tok Info) × List (ChartItem Tok Info)) :=
  (roots first).flatMap fun rhs1 =>
    (reps P.gram.toGrammar toplevel rhs1).map fun rep =>
      (rulesWith P.gram.toGrammar P.ruleHeuristic toplevel (getRhs P.gram.toGrammar rep), edgesWith rhs1 first,
        edgesWith (P.gram.ruleRhs rep 1) second)

def appliedEdges : List (ChartItem Tok Info) :=
  (P.applications toplevel first second).flatMap fun a => P.filterEdges a.1 a.2.1 a.2.2

/-! ## unary_applications -/

/-- The depth first search that makes the graph as it goes: a vertex that is
discovered at a depth below `maxdepth` gets its transitions first. -/
def visit : Nat → List (ChartItem Tok Info) → ChartItem Tok Info → List (ChartItem Tok Info)
  | 0, seen, x => insertEdge seen x
  | depth + 1, seen, x => if x ∈ seen then seen else (P.unaryEdges false x).foldl (visit depth) (seen ++ [x])

def unaryApplications (start : List (ChartItem Tok Info)) : List (ChartItem Tok Info) :=
  start.foldl (P.visit 2) []

/-- `apply_unary_rules`: what it makes of a cleared cell. -/
def applyUnaryRules (equeue : List (ChartItem Tok Info)) : List (ChartItem Tok Info) :=
  insertEdges ((P.unaryApplications equeue).filter fun x => decide (x ∉ equeue)) equeue

/-! ## The bank -/

variable (st : BankState Tok Info)

/-- `get_create`. -/
def getCreate (s : Span) : SpanFilter Tok Info := (st.filters s).getD (.active [])

/-- `apply_toplevel_rules`: the edges that are added over the total span. -/
def toplevelEdges (chart : Chart (ChartItem Tok Info)) : List (ChartItem Tok Info) :=
  ((partitionsGenerator P.totalSpan).flatMap fun p => P.appliedEdges true (chart p.1) (chart p.2)) ++
    (chart P.totalSpan).flatMap (P.unaryEdges true)

def applyToplevelRules (chart : Chart (ChartItem Tok Info)) : Chart (ChartItem Tok Info) :=
  update chart P.totalSpan (insertEdges (chart P.totalSpan) (P.toplevelEdges chart))

/-- The cell over a span once its filter has been emptied into it and the unary
rules have been applied. -/
def finalCell (cell edges : List (ChartItem Tok Info)) : List (ChartItem Tok Info) :=
  let whole := insertEdges cell edges
  let sourceWords := whole.filter fun x => isLexical (type x.root)
  let equeue := insertEdges [] (whole.flatMap fun x =>
    if isLexical (type x.root) then P.unaryEdges false x else [x])
  insertEdges (P.applyUnaryRules equeue) sourceWords

def finalize (s : Span) : BankState Tok Info :=
  match getCreate st s with
  | .reset => { st with filters := update st.filters s (some .reset) }
  | .active edges =>
    let chart := update st.chart s (P.finalCell (st.chart s) edges)
    { chart := if P.totalSpan = s then P.applyToplevelRules chart else chart
      filters := update st.filters s (some .reset)
      log := st.log ++ [.finalized s] }

/-- The calls that reach the filter: those with edges for the second cell. -/
def reachingFilter :
    List (List Rule × List (ChartItem Tok Info) × List (ChartItem Tok Info)) :=
  (P.applications false first second).filter fun a => !a.2.2.isEmpty

def applyRules (firstConstituent : Span) (rightBoundary : Nat) : Option (BankState Tok Info) :=
  if h : firstConstituent.right ≤ rightBoundary ∧ rightBoundary ≤ ushrtMax then
    let secondConstituent : Span := ⟨firstConstituent.right, rightBoundary, h.1, h.2⟩
    let target := firstConstituent.combine secondConstituent
    let calls := P.reachingFilter (st.chart firstConstituent) (st.chart secondConstituent)
    let log := st.log ++ [.applied firstConstituent secondConstituent]
    match getCreate st target with
    | .active edges =>
      some { st with
        filters := update st.filters target
          (some (.active (insertEdges edges (calls.flatMap fun a => P.filterEdges a.1 a.2.1 a.2.2))))
        log := log }
    | .reset =>
      -- the filter is only dereferenced by a call
      if calls.isEmpty then some { st with filters := update st.filters target (some .reset), log := log }
      else none
  else none

/-- The body of the loop over the shifts. -/
def parseSpan (span : Span) : Option (BankState Tok Info) :=
  ((partitionsGenerator span).foldlM (fun st p => P.applyRules st p.1 p.2.right) st).map fun st => P.finalize st span

/-- The spans `[i,i+1]` of the loop for length one. -/
def unitSpans (target : Span) : List Span :=
  (finRange target.length).map fun i : Fin target.length =>
    ⟨target.left + i, target.left + i + 1, Nat.le_succ _, by
      have := i.2
      have := target.bound
      unfold Span.length at *
      omega⟩

def parseLength (target : Span) (st : BankState Tok Info) (len : Nat) : Option (BankState Tok Info) :=
  if len = 1 then some ((unitSpans target).foldl P.finalize st)
  else (shiftGenerator target len).foldlM P.parseSpan st

def parseCky (target : Span) (st : BankState Tok Info) : Option (BankState Tok Info) :=
  (lengths target.length).bind fun lens =>
    (lens.foldlM (P.parseLength target) st).map fun st => P.finalize st target

end FilterBank

/-! ## The closure -/

/-- The source words of a sentence, each over a span of the target. -/
structure CkyInput (Tok Info : Type) (type : Tok → TokenType) where
  target : Span
  proper : target.left < target.right
  words : List (ChartItem Tok Info)
  foreign : ∀ w ∈ words, type w.root = .foreign
  inside : ∀ w ∈ words, w.span.left < w.span.right ∧ target.left ≤ w.span.left ∧ w.span.right ≤ target.right

/-- Two adjacent spans that make up a third. -/
structure Parts (p q s : Span) : Prop where
  left : p.left = s.left
  adjacent : p.right = q.left
  right : q.right = s.right
  first : p.left < p.right
  second : q.left < q.right

theorem mem_partitionsGenerator_iff_parts {p q s : Span} : (p, q) ∈ partitionsGenerator s ↔ Parts p q s := by
  rw [mem_partitionsGenerator]
  constructor
  · rintro ⟨h1, h2, h3, h4, h5⟩
    exact ⟨h1, h2, h3, h4, h5⟩
  · rintro ⟨h1, h2, h3, h4, h5⟩
    exact ⟨h1, h2, h3, h4, h5⟩

/-- The deduction closure of the parser. -/
inductive Derives (gram : BinarizedGrammar Tok Rule type) (input : CkyInput Tok Info type) : Tok → Span → Prop
  | word {w : ChartItem Tok Info} (hw : w ∈ input.words) : Derives gram input w.root w.span
  | unary {r : Rule} {w : ChartItem Tok Info} (hr : r ∈ gram.allRules) (hsize : gram.ruleRhsSize r = 1)
      (htop : gram.lhsTop r = false) (hw : w ∈ input.words) (hroot : w.root = gram.ruleRhs r 0) :
      Derives gram input (gram.ruleLhs r) w.span
  | binary {r : Rule} {p q s : Span} (hr : r ∈ gram.allRules) (hsize : gram.ruleRhsSize r = 2)
      (htop : gram.lhsTop r = false) (hparts : Parts p q s) (hp : Derives gram input (gram.ruleRhs r 0) p)
      (hq : Derives gram input (gram.ruleRhs r 1) q) : Derives gram input (gram.ruleLhs r) s
  | topUnary {r : Rule} (hr : r ∈ gram.allRules) (hsize : gram.ruleRhsSize r = 1) (htop : gram.lhsTop r = true)
      (h : Derives gram input (gram.ruleRhs r 0) input.target) : Derives gram input (gram.ruleLhs r) input.target
  | topBinary {r : Rule} {p q : Span} (hr : r ∈ gram.allRules) (hsize : gram.ruleRhsSize r = 2)
      (htop : gram.lhsTop r = true) (hparts : Parts p q input.target) (hp : Derives gram input (gram.ruleRhs r 0) p)
      (hq : Derives gram input (gram.ruleRhs r 1) q) : Derives gram input (gram.ruleLhs r) input.target

/-- The cell has an item with the root. -/
def HasRoot (t : Tok) : Prop := ∃ x ∈ cell, x.root = t

/-- `insert_edge` for every word. -/
def CkyInput.start (input : CkyInput Tok Info type) : BankState Tok Info where
  chart := fun s => insertEdges [] (input.words.filter fun w => decide (w.span = s))
  filters := fun _ => none
  log := []

/-- The calls of a run: `apply_rules` once for every partition of a span, when
the parts are finalized and before the span is, and for nothing else. -/
structure InOrder (target : Span) (log : List BankEvent) : Prop where
  once : ∀ s p q : Span, target.left ≤ s.left → s.right ≤ target.right → Parts p q s →
    log.count (.applied p q) = 1
  only : ∀ p q : Span, .applied p q ∈ log → ∃ s : Span, target.left ≤ s.left ∧ s.right ≤ target.right ∧ Parts p q s
  between : ∀ (s p q : Span) (before after : List BankEvent), Parts p q s → log = before ++ .applied p q :: after →
    .finalized p ∈ before ∧ .finalized q ∈ before ∧ .finalized s ∉ before ∧ .finalized s ∈ after

/-- The run ends, its chart holds the closure, and it made its calls in order. -/
def ParsesClosure (P : FilterBank Tok Rule Info S type) (input : CkyInput Tok Info type) : Prop :=
  ∃ st, P.parseCky input.target input.start = some st ∧
    (∀ s, ∀ x ∈ st.chart s, x.span = s) ∧ (∀ t s, HasRoot (st.chart s) t ↔ Derives P.gram input t s) ∧
      InOrder input.target st.log

/-! ## What the edges are -/

section Edges

variable {r : Rule} {toplevel : Bool}

/-- Every right-hand side has a representative. -/
theorem exists_sigMap {gram : Grammar Tok Rule} (hr : r ∈ gram.allRules)
    (ht : taken gram toplevel r = true) : ∃ r' ∈ sigMap gram toplevel, getRhs gram r' = getRhs gram r := by
  have hkeep : ∀ (rs acc : List Rule), ∀ r' ∈ acc, r' ∈ rs.foldl (insertRep gram toplevel) acc := by
    intro rs
    induction rs with
    | nil => exact fun _ _ h => h
    | cons r'' rs ih =>
      intro acc r' hr'
      apply ih
      unfold insertRep
      split
      · exact mem_append_left _ hr'
      · exact hr'
  have hfold : ∀ (rs acc : List Rule), r ∈ rs →
      ∃ r' ∈ rs.foldl (insertRep gram toplevel) acc, getRhs gram r' = getRhs gram r := by
    intro rs
    induction rs with
    | nil => exact fun _ h => by cases h
    | cons r'' rs ih =>
      intro acc hr
      rcases mem_cons.1 hr with rfl | hr
      · by_cases hold : ∃ r' ∈ acc, getRhs gram r' = getRhs gram r
        · obtain ⟨r', hr', heq⟩ := hold
          exact ⟨r', hkeep (r :: rs) acc r' hr', heq⟩
        · refine ⟨r, hkeep rs _ r ?_, rfl⟩
          have hall : (acc.all fun r' => decide (getRhs gram r' ≠ getRhs gram r)) = true := by
            rw [all_eq_true]
            intro r' hr'
            exact decide_eq_true fun heq => hold ⟨r', hr', heq⟩
          unfold insertRep
          rw [ht, hall]
          simp
      · exact ih _ hr
  exact hfold _ _ hr

variable {P : FilterBank Tok Rule Info S type}

variable {x z : ChartItem Tok Info}

section
omit [DecidableEq Tok] [DecidableEq Info] [LinearOrder S]

theorem FilterBank.createUnary_root (h : z ∈ P.createUnary r x) : z.root = P.gram.ruleLhs r ∧ z.span = x.span := by
  obtain ⟨i, -, rfl⟩ := mem_map.1 h
  exact ⟨rfl, rfl⟩

theorem FilterBank.createBinary_root {y : ChartItem Tok Info} (h : z ∈ P.createBinary r x y) :
    z.root = P.gram.ruleLhs r ∧ z.span = x.span.combine y.span := by
  obtain ⟨i, -, rfl⟩ := mem_map.1 h
  exact ⟨rfl, rfl⟩

theorem FilterBank.exists_createUnary (P : FilterBank Tok Rule Info S type) (r : Rule) (x : ChartItem Tok Info) :
    ∃ z, z ∈ P.createUnary r x := by
  apply exists_mem_of_ne_nil
  intro h
  exact P.unaryInfos_ne r x (map_eq_nil_iff.1 h)

theorem FilterBank.exists_createBinary (P : FilterBank Tok Rule Info S type) (r : Rule) (x y : ChartItem Tok Info) :
    ∃ z, z ∈ P.createBinary r x y := by
  apply exists_mem_of_ne_nil
  intro h
  exact P.binaryInfos_ne r x y (map_eq_nil_iff.1 h)

end

omit [DecidableEq Info] [LinearOrder S] in
theorem FilterBank.mem_unaryEdges :
    z ∈ P.unaryEdges toplevel x ↔ ∃ r ∈ P.gram.allRules, P.gram.ruleRhsSize r = 1 ∧ P.gram.lhsTop r = toplevel ∧
      P.gram.ruleRhs r 0 = x.root ∧ z ∈ P.createUnary r x := by
  simp only [FilterBank.unaryEdges, FilterBank.unaryRules, mem_flatMap, mem_filter, Bool.and_eq_true,
    beq_iff_eq, decide_eq_true_eq]
  constructor
  · rintro ⟨r, ⟨hr, ⟨hsize, htop⟩, hroot⟩, hz⟩
    exact ⟨r, hr, hsize, htop, hroot, hz⟩
  · rintro ⟨r, hr, hsize, htop, hroot, hz⟩
    exact ⟨r, ⟨hr, ⟨hsize, htop⟩, hroot⟩, hz⟩

variable {first second : List (ChartItem Tok Info)}

omit [DecidableEq Info]

/-- **Representatives and rule lists reach every rule over the two cells.** -/
theorem FilterBank.mem_appliedEdges :
    z ∈ P.appliedEdges toplevel first second ↔
      ∃ r ∈ P.gram.allRules, P.gram.ruleRhsSize r = 2 ∧ P.gram.lhsTop r = toplevel ∧
        ∃ x ∈ first, ∃ y ∈ second, x.root = P.gram.ruleRhs r 0 ∧ y.root = P.gram.ruleRhs r 1 ∧
          z ∈ P.createBinary r x y := by
  have htaken : ∀ r, taken P.gram.toGrammar toplevel r = true ↔ P.gram.ruleRhsSize r = 2 ∧ P.gram.lhsTop r = toplevel := by
    intro r
    simp [taken]
  have hrules : ∀ r pc, r ∈ rulesWith P.gram.toGrammar P.ruleHeuristic toplevel pc ↔
      r ∈ P.gram.allRules ∧ taken P.gram.toGrammar toplevel r = true ∧ getRhs P.gram.toGrammar r = pc := by
    intro r pc
    rw [(rulesWith_perm P.gram.toGrammar P.ruleHeuristic toplevel pc).mem_iff]
    simp [mem_filter]
  simp only [FilterBank.appliedEdges, FilterBank.applications, FilterBank.filterEdges, mem_flatMap, mem_map]
  constructor
  · rintro ⟨_, ⟨rhs1, -, rep, hrep, rfl⟩, r, hr, x, hx, y, hy, hz⟩
    obtain ⟨hmem, ht, hrhs⟩ := (hrules r _).1 hr
    obtain ⟨hx, hxroot⟩ := mem_filter.1 hx
    obtain ⟨hy, hyroot⟩ := mem_filter.1 hy
    obtain ⟨hsize, htop⟩ := (htaken r).1 ht
    have h0 : P.gram.ruleRhs r 0 = P.gram.ruleRhs rep 0 := congrArg Prod.fst hrhs
    have h1 : P.gram.ruleRhs r 1 = P.gram.ruleRhs rep 1 := congrArg Prod.snd hrhs
    have hrep0 : P.gram.ruleRhs rep 0 = rhs1 := of_decide_eq_true (mem_filter.1 hrep).2
    refine ⟨r, hmem, hsize, htop, x, hx, y, hy, ?_, ?_, hz⟩
    · rw [h0, hrep0]
      exact of_decide_eq_true hxroot
    · rw [h1]
      exact of_decide_eq_true hyroot
  · rintro ⟨r, hr, hsize, htop, x, hx, y, hy, hxroot, hyroot, hz⟩
    have ht := (htaken r).2 ⟨hsize, htop⟩
    obtain ⟨rep, hrep, hrhs⟩ := exists_sigMap hr ht
    have h0 : P.gram.ruleRhs rep 0 = P.gram.ruleRhs r 0 := congrArg Prod.fst hrhs
    have h1 : P.gram.ruleRhs rep 1 = P.gram.ruleRhs r 1 := congrArg Prod.snd hrhs
    refine ⟨_, ⟨x.root, ?_, rep, ?_, rfl⟩, r, (hrules r _).2 ⟨hr, ht, hrhs.symm⟩, x, ?_, y, ?_, hz⟩
    · exact mem_dedup.2 (mem_map_of_mem hx)
    · refine mem_filter.2 ⟨hrep, decide_eq_true ?_⟩
      rw [h0, hxroot]
    · exact mem_filter.2 ⟨hx, decide_eq_true rfl⟩
    · refine mem_filter.2 ⟨hy, decide_eq_true ?_⟩
      rw [hyroot, h1]

/-- A call without edges for the second cell makes no edge. -/
theorem FilterBank.mem_reachingFilter :
    z ∈ (P.reachingFilter first second).flatMap (fun a => P.filterEdges a.1 a.2.1 a.2.2) ↔
      z ∈ P.appliedEdges false first second := by
  simp only [FilterBank.reachingFilter, FilterBank.appliedEdges, mem_flatMap, mem_filter]
  constructor
  · rintro ⟨a, ⟨ha, -⟩, hz⟩
    exact ⟨a, ha, hz⟩
  · rintro ⟨a, ha, hz⟩
    refine ⟨a, ⟨ha, ?_⟩, hz⟩
    cases hempty : a.2.2 with
    | nil => simp [FilterBank.filterEdges, hempty] at hz
    | cons y ys => rfl

end Edges

/-! ## Cells that are final -/

section FinalCell

variable {P : FilterBank Tok Rule Info S type}

omit [DecidableEq Info] [LinearOrder S] in
theorem FilterBank.unaryEdges_not_lexical {x : ChartItem Tok Info} (h : isLexical (type x.root) = false) :
    P.unaryEdges false x = [] := by
  apply eq_nil_iff_forall_not_mem.2
  intro z hz
  obtain ⟨r, hr, hsize, htop, hroot, -⟩ := FilterBank.mem_unaryEdges.1 hz
  rw [← hroot, P.gram.unary_foreign r hr hsize htop] at h
  cases h

variable {z : ChartItem Tok Info}

omit [DecidableEq Info] [LinearOrder S] in
theorem FilterBank.unaryEdges_root {toplevel : Bool} {x : ChartItem Tok Info} (h : z ∈ P.unaryEdges toplevel x) :
    isLexical (type z.root) = false := by
  obtain ⟨r, hr, -, -, -, hz⟩ := FilterBank.mem_unaryEdges.1 h
  rw [(FilterBank.createUnary_root hz).1]
  exact P.gram.lhs_not_lexical r hr

omit [LinearOrder S]

/-- Where no start edge has a unary rule, the search discovers nothing else. -/
theorem FilterBank.mem_unaryApplications {start : List (ChartItem Tok Info)}
    (h : ∀ x ∈ start, P.unaryEdges false x = []) (hz : z ∈ P.unaryApplications start) :
    z ∈ start := by
  have hfold : ∀ (xs acc : List (ChartItem Tok Info)), (∀ x ∈ xs, P.unaryEdges false x = []) →
      z ∈ xs.foldl (P.visit 2) acc → z ∈ acc ∨ z ∈ xs := by
    intro xs
    induction xs with
    | nil => exact fun _ _ => .inl
    | cons x xs ih =>
      intro acc hxs hz
      rcases ih _ (fun y hy => hxs y (mem_cons_of_mem _ hy)) hz with hz | hz
      · simp only [FilterBank.visit, hxs x (mem_cons_self ..), foldl_nil] at hz
        split at hz
        · exact .inl hz
        · rcases mem_append.1 hz with hz | hz
          · exact .inl hz
          · exact .inr (mem_singleton.1 hz ▸ mem_cons_self ..)
      · exact .inr (mem_cons_of_mem _ hz)
  rcases hfold start [] h hz with hz | hz
  · cases hz
  · exact hz

theorem FilterBank.mem_finalCell {cell edges : List (ChartItem Tok Info)}
    (hcell : ∀ x ∈ cell, type x.root = .foreign) (hedges : ∀ x ∈ edges, isLexical (type x.root) = false)
    :
    z ∈ P.finalCell cell edges ↔ z ∈ cell ∨ z ∈ edges ∨ ∃ w ∈ cell, z ∈ P.unaryEdges false w := by
  have hlex : ∀ x ∈ cell, isLexical (type x.root) = true := by
    intro x hx
    rw [hcell x hx]
    rfl
  have hqueue : ∀ x, x ∈ insertEdges [] ((insertEdges cell edges).flatMap fun x =>
      if isLexical (type x.root) then P.unaryEdges false x else [x]) ↔
        x ∈ edges ∨ ∃ w ∈ cell, x ∈ P.unaryEdges false w := by
    intro x
    simp only [mem_insertEdges, not_mem_nil, false_or, mem_flatMap]
    constructor
    · rintro ⟨y, hy | hy, hx⟩
      · rw [if_pos (hlex y hy)] at hx
        exact .inr ⟨y, hy, hx⟩
      · rw [hedges y hy] at hx
        exact .inl (mem_singleton.1 hx ▸ hy)
    · rintro (hx | ⟨w, hw, hx⟩)
      · refine ⟨x, .inr hx, ?_⟩
        rw [hedges x hx]
        exact mem_singleton.2 rfl
      · refine ⟨w, .inl hw, ?_⟩
        rw [if_pos (hlex w hw)]
        exact hx
  have hqueueLex : ∀ x, (x ∈ edges ∨ ∃ w ∈ cell, x ∈ P.unaryEdges false w) → isLexical (type x.root) = false := by
    rintro x (hx | ⟨w, -, hx⟩)
    · exact hedges x hx
    · exact FilterBank.unaryEdges_root hx
  -- the search over the queue discovers nothing new, so the queue itself is put back
  unfold FilterBank.finalCell FilterBank.applyUnaryRules
  simp only [mem_insertEdges, mem_filter, hqueue, decide_eq_true_eq]
  constructor
  · rintro ((⟨hz, hnot⟩ | hz) | ⟨hz, hl⟩)
    · refine absurd ((hqueue z).1 (FilterBank.mem_unaryApplications ?_ hz)) hnot
      intro x hx
      exact FilterBank.unaryEdges_not_lexical (hqueueLex x ((hqueue x).1 hx))
    · exact .inr hz
    · rcases hz with hz | hz
      · exact .inl hz
      · rw [hedges z hz] at hl
        cases hl
  · rintro (hz | hz)
    · exact .inr ⟨.inl hz, hlex z hz⟩
    · exact .inl (.inr hz)

end FinalCell

/-! ## One span -/

section Step

variable {P : FilterBank Tok Rule Info S type} {input : CkyInput Tok Info type}

/-- What one span contributes to the calls of a run. -/
def spanCalls (s : Span) : List BankEvent :=
  ((partitionsGenerator s).map fun p => .applied p.1 p.2) ++ [.finalized s]

/-- The state after the spans `done`: their cells hold the closure, the others
only their words. -/
structure Through (P : FilterBank Tok Rule Info S type) (input : CkyInput Tok Info type) (done : List Span)
    (st : BankState Tok Info) : Prop where
  closed : ∀ s ∈ done, ∀ t, HasRoot (st.chart s) t ↔ Derives P.gram input t s
  reset : ∀ s ∈ done, st.filters s = some .reset
  blank : ∀ s ∉ done, st.chart s = input.start.chart s ∧ st.filters s = none
  spans : ∀ s, ∀ x ∈ st.chart s, x.span = s
  log : st.log = done.flatMap spanCalls

variable {s : Span}

theorem CkyInput.mem_start {x : ChartItem Tok Info} : x ∈ input.start.chart s ↔ x ∈ input.words ∧ x.span = s := by
  simp [CkyInput.start]

variable (P input) in
omit [LinearOrder S] in
theorem Through.start :
    Through P input [] input.start where
  closed := fun s hs => by cases hs
  reset := fun s hs => by cases hs
  blank := fun s _ => ⟨rfl, rfl⟩
  spans := fun s x hx => (CkyInput.mem_start.1 hx).2
  log := rfl

variable {edges : List (ChartItem Tok Info)} {p q span : Span} {st : BankState Tok Info}

/-- One call of `apply_rules` over a span that is not finalized. -/
theorem applyRules_parts (hparts : Parts p q span) (hf : FilterBank.getCreate st span = .active edges) :
    ∃ st' edges', P.applyRules st p q.right = some st' ∧ FilterBank.getCreate st' span = .active edges' ∧
      (∀ z, z ∈ edges' ↔ z ∈ edges ∨ z ∈ P.appliedEdges false (st.chart p) (st.chart q)) ∧
      st'.chart = st.chart ∧ (∀ s, s ≠ span → st'.filters s = st.filters s) ∧ st'.log = st.log ++ [.applied p q] := by
  have hbound : p.right ≤ q.right ∧ q.right ≤ ushrtMax := by
    refine ⟨?_, q.bound⟩
    rw [hparts.adjacent]
    exact q.le
  have hsecond : (⟨p.right, q.right, hbound.1, hbound.2⟩ : Span) = q := Span.ext hparts.adjacent rfl
  have htarget : p.combine q = span := Span.combine_eq hparts.left hparts.right
  unfold FilterBank.applyRules
  rw [dif_pos hbound]
  simp only [hsecond, htarget, hf]
  refine ⟨_, insertEdges edges ((P.reachingFilter (st.chart p) (st.chart q)).flatMap fun a =>
    P.filterEdges a.1 a.2.1 a.2.2), rfl, ?_, ?_, rfl, ?_, rfl⟩
  · simp only [FilterBank.getCreate, update_self, Option.getD_some]
  · intro z
    rw [mem_insertEdges, FilterBank.mem_reachingFilter]
  · intro s hs
    exact update_of_ne hs _ _

/-- **The loop over the partitions** gathers their edges in the filter of the
span. -/
theorem applyRules_run : ∀ {ps : List (Span × Span)} {st : BankState Tok Info} {edges : List (ChartItem Tok Info)},
      (∀ p ∈ ps, Parts p.1 p.2 span) → FilterBank.getCreate st span = .active edges →
      ∃ st' edges', ps.foldlM (fun st p => P.applyRules st p.1 p.2.right) st = some st' ∧
        FilterBank.getCreate st' span = .active edges' ∧
        (∀ z, z ∈ edges' ↔ z ∈ edges ∨ ∃ p ∈ ps, z ∈ P.appliedEdges false (st.chart p.1) (st.chart p.2)) ∧
        st'.chart = st.chart ∧ (∀ s, s ≠ span → st'.filters s = st.filters s) ∧
        st'.log = st.log ++ ps.map fun p => .applied p.1 p.2
  | [], st, edges, _, hf => ⟨st, edges, rfl, hf, by simp, rfl, fun _ _ => rfl, by simp⟩
  | (p, q) :: ps, st, edges, hps, hf => by
    obtain ⟨mid, edges1, hstep, hf1, hedges1, hchart1, hfilters1, hlog1⟩ :=
      applyRules_parts (P := P) (hps (p, q) (mem_cons_self ..)) hf
    obtain ⟨st', edges2, hrun, hf2, hedges2, hchart2, hfilters2, hlog2⟩ :=
      applyRules_run (fun x hx => hps x (mem_cons_of_mem _ hx)) hf1
    refine ⟨st', edges2, ?_, hf2, ?_, hchart2.trans hchart1, ?_, ?_⟩
    · rw [foldlM_cons, hstep]
      exact hrun
    · intro z
      rw [hedges2, hedges1, hchart1, or_assoc]
      simp only [mem_cons, exists_eq_or_imp]
    · intro s hs
      rw [hfilters2 s hs, hfilters1 s hs]
    · rw [hlog2, hlog1]
      simp

/-- The items over a span before the toplevel rules. -/
theorem hasRoot_finalCell (hcell : st.chart s = input.start.chart s)
    (hclosed : ∀ p q, Parts p q s → ∀ t, (HasRoot (st.chart p) t ↔ Derives P.gram input t p) ∧
      (HasRoot (st.chart q) t ↔ Derives P.gram input t q))
    (hedges : ∀ z, z ∈ edges ↔ ∃ p ∈ partitionsGenerator s, z ∈ P.appliedEdges false (st.chart p.1) (st.chart p.2))
    (t : Tok) :
    HasRoot (P.finalCell (st.chart s) edges) t ↔ Derives P.gram input t s ∧ type t ≠ .top := by
  have hlex : ∀ z ∈ edges, isLexical (type z.root) = false := by
    intro z hz
    obtain ⟨p, -, hz⟩ := (hedges z).1 hz
    obtain ⟨r, hr, -, -, x, -, y, -, -, -, hz⟩ := FilterBank.mem_appliedEdges.1 hz
    rw [(FilterBank.createBinary_root hz).1]
    exact P.gram.lhs_not_lexical r hr
  have hforeign : ∀ x ∈ st.chart s, type x.root = .foreign := by
    intro x hx
    rw [hcell] at hx
    exact input.foreign x (CkyInput.mem_start.1 hx).1
  have hnontop : ∀ r ∈ P.gram.allRules, P.gram.lhsTop r = false → type (P.gram.ruleLhs r) ≠ .top := by
    intro r hr htop h
    rw [(P.gram.lhsTop_iff r hr).2 h] at htop
    cases htop
  constructor
  · rintro ⟨z, hz, rfl⟩
    rcases (FilterBank.mem_finalCell hforeign hlex).1 hz with hword | hz | ⟨w, hw, hedge⟩
    · rw [hcell] at hword
      obtain ⟨hmem, rfl⟩ := CkyInput.mem_start.1 hword
      refine ⟨.word hmem, ?_⟩
      rw [input.foreign z hmem]
      exact TokenType.noConfusion
    · obtain ⟨⟨p, q⟩, hpq, hz⟩ := (hedges z).1 hz
      obtain ⟨r, hr, hsize, htop, x, hx, y, hy, hxroot, hyroot, hz⟩ := FilterBank.mem_appliedEdges.1 hz
      have hparts := mem_partitionsGenerator_iff_parts.1 hpq
      rw [(FilterBank.createBinary_root hz).1]
      refine ⟨.binary hr hsize htop hparts ?_ ?_, hnontop r hr htop⟩
      · exact (hclosed p q hparts _).1.1 ⟨x, hx, hxroot⟩
      · exact (hclosed p q hparts _).2.1 ⟨y, hy, hyroot⟩
    · rw [hcell] at hw
      obtain ⟨hmem, rfl⟩ := CkyInput.mem_start.1 hw
      obtain ⟨r, hr, hsize, htop, hroot, hmade⟩ := FilterBank.mem_unaryEdges.1 hedge
      rw [(FilterBank.createUnary_root hmade).1]
      exact ⟨.unary hr hsize htop hmem hroot.symm, hnontop r hr htop⟩
  · rintro ⟨h, hnot⟩
    have htop' : ∀ r ∈ P.gram.allRules, P.gram.lhsTop r = true → type (P.gram.ruleLhs r) = .top :=
      fun r hr => (P.gram.lhsTop_iff r hr).1
    cases h with
    | word hw =>
      refine ⟨_, (FilterBank.mem_finalCell hforeign hlex).2 (.inl ?_), rfl⟩
      rw [hcell]
      exact CkyInput.mem_start.2 ⟨hw, rfl⟩
    | @unary r w hr hsize htop hw hroot =>
      obtain ⟨z, hz⟩ := P.exists_createUnary r w
      refine ⟨z, (FilterBank.mem_finalCell hforeign hlex).2 (.inr (.inr ⟨w, ?_, ?_⟩)), (FilterBank.createUnary_root hz).1⟩
      · rw [hcell]
        exact CkyInput.mem_start.2 ⟨hw, rfl⟩
      · exact FilterBank.mem_unaryEdges.2 ⟨r, hr, hsize, htop, hroot.symm, hz⟩
    | @binary r p q _ hr hsize htop hparts hp hq =>
      obtain ⟨x, hx, hxroot⟩ := (hclosed p q hparts _).1.2 hp
      obtain ⟨y, hy, hyroot⟩ := (hclosed p q hparts _).2.2 hq
      obtain ⟨z, hz⟩ := P.exists_createBinary r x y
      refine ⟨z, (FilterBank.mem_finalCell hforeign hlex).2 (.inr (.inl ?_)), (FilterBank.createBinary_root hz).1⟩
      refine (hedges z).2 ⟨(p, q), mem_partitionsGenerator_iff_parts.2 hparts, ?_⟩
      exact FilterBank.mem_appliedEdges.2 ⟨r, hr, hsize, htop, x, hx, y, hy, hxroot, hyroot, hz⟩
    | topUnary hr _ htop _ => exact absurd (htop' _ hr htop) hnot
    | topBinary hr _ htop _ _ _ => exact absurd (htop' _ hr htop) hnot

variable {chart : Chart (ChartItem Tok Info)}

/-- The toplevel rules complete the cell of the target. -/
theorem hasRoot_applyToplevelRules (htotal : P.totalSpan = input.target)
    (hinner : ∀ t, HasRoot (chart input.target) t ↔ Derives P.gram input t input.target ∧ type t ≠ .top)
    (hclosed : ∀ p q, Parts p q input.target → ∀ t, (HasRoot (chart p) t ↔ Derives P.gram input t p) ∧
      (HasRoot (chart q) t ↔ Derives P.gram input t q)) (t : Tok) :
    HasRoot (P.applyToplevelRules chart input.target) t ↔ Derives P.gram input t input.target := by
  have hcell : ∀ z, z ∈ P.applyToplevelRules chart input.target ↔ z ∈ chart input.target ∨
      (∃ p ∈ partitionsGenerator input.target, z ∈ P.appliedEdges true (chart p.1) (chart p.2)) ∨
        ∃ x ∈ chart input.target, z ∈ P.unaryEdges true x := by
    intro z
    unfold FilterBank.applyToplevelRules FilterBank.toplevelEdges
    rw [htotal, update_self, mem_insertEdges, mem_append, mem_flatMap, mem_flatMap]
  constructor
  · rintro ⟨z, hz, rfl⟩
    rcases (hcell z).1 hz with hz | ⟨⟨p, q⟩, hpq, hz⟩ | ⟨x, hx, hz⟩
    · exact ((hinner _).1 ⟨z, hz, rfl⟩).1
    · obtain ⟨r, hr, hsize, htop, x, hx, y, hy, hxroot, hyroot, hz⟩ := FilterBank.mem_appliedEdges.1 hz
      have hparts := mem_partitionsGenerator_iff_parts.1 hpq
      rw [(FilterBank.createBinary_root hz).1]
      refine .topBinary hr hsize htop hparts ?_ ?_
      · exact (hclosed p q hparts _).1.1 ⟨x, hx, hxroot⟩
      · exact (hclosed p q hparts _).2.1 ⟨y, hy, hyroot⟩
    · obtain ⟨r, hr, hsize, htop, hroot, hz⟩ := FilterBank.mem_unaryEdges.1 hz
      rw [(FilterBank.createUnary_root hz).1]
      refine .topUnary hr hsize htop ?_
      rw [hroot]
      exact ((hinner _).1 ⟨x, hx, rfl⟩).1
  · intro h
    by_cases ht : type t = .top
    · obtain ⟨s, hs⟩ : ∃ s, s = input.target := ⟨_, rfl⟩
      have hders : Derives P.gram input t s := hs ▸ h
      cases hders with
      | word hw =>
        rw [input.foreign _ hw] at ht
        cases ht
      | unary hr _ htop _ _ =>
        rw [(P.gram.lhsTop_iff _ hr).2 ht] at htop
        cases htop
      | binary hr _ htop _ _ _ =>
        rw [(P.gram.lhsTop_iff _ hr).2 ht] at htop
        cases htop
      | @topUnary r hr hsize htop hchild =>
        have hrhs := P.gram.rhs_not_top r hr 0 (by omega)
        obtain ⟨x, hx, hxroot⟩ := (hinner _).2 ⟨hchild, hrhs⟩
        obtain ⟨z, hz⟩ := P.exists_createUnary r x
        refine ⟨z, (hcell z).2 (.inr (.inr ⟨x, hx, ?_⟩)), (FilterBank.createUnary_root hz).1⟩
        exact FilterBank.mem_unaryEdges.2 ⟨r, hr, hsize, htop, hxroot.symm, hz⟩
      | @topBinary r p q hr hsize htop hparts hp hq =>
        obtain ⟨x, hx, hxroot⟩ := (hclosed p q hparts _).1.2 hp
        obtain ⟨y, hy, hyroot⟩ := (hclosed p q hparts _).2.2 hq
        obtain ⟨z, hz⟩ := P.exists_createBinary r x y
        refine ⟨z, (hcell z).2 (.inr (.inl ⟨(p, q), mem_partitionsGenerator_iff_parts.2 hparts, ?_⟩)),
          (FilterBank.createBinary_root hz).1⟩
        exact FilterBank.mem_appliedEdges.2 ⟨r, hr, hsize, htop, x, hx, y, hy, hxroot, hyroot, hz⟩
    · obtain ⟨z, hz, hroot⟩ := (hinner t).2 ⟨h, ht⟩
      exact ⟨z, (hcell z).2 (.inl hz), hroot⟩

omit [DecidableEq Tok] [DecidableEq Info] [LinearOrder S] in
/-- A toplevel root is derived over the target only. -/
theorem Derives.eq_target_of_top {t : Tok} (h : Derives P.gram input t s) (ht : type t = .top) : s = input.target := by
  cases h with
  | word hw =>
    rw [input.foreign _ hw] at ht
    cases ht
  | unary hr _ htop _ _ =>
    rw [(P.gram.lhsTop_iff _ hr).2 ht] at htop
    cases htop
  | binary hr _ htop _ _ _ =>
    rw [(P.gram.lhsTop_iff _ hr).2 ht] at htop
    cases htop
  | topUnary _ _ _ _ => rfl
  | topBinary _ _ _ _ _ _ => rfl

variable {z : ChartItem Tok Info}

omit [DecidableEq Info] in
theorem appliedEdges_span (hspans : ∀ s, ∀ x ∈ chart s, x.span = s) {toplevel : Bool} (hparts : Parts p q s)
    (hz : z ∈ P.appliedEdges toplevel (chart p) (chart q)) : z.span = s := by
  obtain ⟨r, -, -, -, x, hx, y, hy, -, -, hz⟩ := FilterBank.mem_appliedEdges.1 hz
  rw [(FilterBank.createBinary_root hz).2, hspans p x hx, hspans q y hy]
  exact Span.combine_eq hparts.left hparts.right

omit [DecidableEq Info] [LinearOrder S] in
theorem unaryEdges_span {toplevel : Bool} {x : ChartItem Tok Info} (hz : z ∈ P.unaryEdges toplevel x) :
    z.span = x.span := by
  obtain ⟨r, -, -, -, -, hz⟩ := FilterBank.mem_unaryEdges.1 hz
  exact (FilterBank.createUnary_root hz).2

variable {cell} in
omit [LinearOrder S] in
theorem finalCell_span (hcell : ∀ x ∈ cell, type x.root = .foreign ∧ x.span = s)
    (hedges : ∀ x ∈ edges, isLexical (type x.root) = false ∧ x.span = s)
    (hz : z ∈ P.finalCell cell edges) : z.span = s := by
  rcases (FilterBank.mem_finalCell (fun x hx => (hcell x hx).1) fun x hx => (hedges x hx).1).1 hz with
    hz | hz | ⟨w, hw, hz⟩
  · exact (hcell z hz).2
  · exact (hedges z hz).2
  · rw [unaryEdges_span hz]
    exact (hcell w hw).2

theorem applyToplevelRules_span (hspans : ∀ s, ∀ x ∈ chart s, x.span = s)
    (s : Span) : ∀ x ∈ P.applyToplevelRules chart s, x.span = s := by
  intro x hx
  unfold FilterBank.applyToplevelRules at hx
  by_cases hs : s = P.totalSpan
  · subst hs
    rw [update_self, mem_insertEdges] at hx
    rcases hx with hx | hx
    · exact hspans _ x hx
    · rcases mem_append.1 hx with hx | hx
      · obtain ⟨⟨p, q⟩, hpq, hx⟩ := mem_flatMap.1 hx
        exact appliedEdges_span hspans (mem_partitionsGenerator_iff_parts.1 hpq) hx
      · obtain ⟨y, hy, hx⟩ := mem_flatMap.1 hx
        rw [unaryEdges_span hx]
        exact hspans _ y hy
  · rw [update_of_ne hs] at hx
    exact hspans s x hx

/-- The parts of a span are other spans. -/
theorem Parts.ne (h : Parts p q s) : p ≠ s ∧ q ≠ s := by
  obtain ⟨h1, h2, h3, h4, h5⟩ := h
  constructor
  · rintro rfl
    omega
  · rintro rfl
    omega

/-- The chart that `finalize` leaves. -/
def finalChart (P : FilterBank Tok Rule Info S type) (chart : Chart (ChartItem Tok Info)) (span : Span)
    (edges : List (ChartItem Tok Info)) : Chart (ChartItem Tok Info) :=
  let chart' := update chart span (P.finalCell (chart span) edges)
  if P.totalSpan = span then P.applyToplevelRules chart' else chart'

theorem finalChart_of_ne (hs : s ≠ span) : finalChart P chart span edges s = chart s := by
  unfold finalChart FilterBank.applyToplevelRules
  split
  · rename_i htotal
    rw [htotal, update_of_ne hs, update_of_ne hs]
  · rw [update_of_ne hs]

section FinalChart

variable {done : List Span} {st : BankState Tok Info} {span : Span} {edges : List (ChartItem Tok Info)}
  (h : Through P input done st) (hnew : span ∉ done)
  (hedges : ∀ z, z ∈ edges ↔
    ∃ p ∈ partitionsGenerator span, z ∈ P.appliedEdges false (st.chart p.1) (st.chart p.2))

include h hnew hedges

theorem finalChart_span : ∀ s, ∀ x ∈ finalChart P st.chart span edges s, x.span = s := by
  have hupdate : ∀ s, ∀ x ∈ update st.chart span (P.finalCell (st.chart span) edges) s, x.span = s := by
    intro s x hx
    by_cases hs : s = span
    · subst hs
      rw [update_self] at hx
      refine finalCell_span (fun y hy => ⟨?_, h.spans s y hy⟩) (fun y hy => ?_) hx
      · rw [(h.blank s hnew).1] at hy
        exact input.foreign y (CkyInput.mem_start.1 hy).1
      · obtain ⟨⟨p, q⟩, hpq, hy⟩ := (hedges y).1 hy
        refine ⟨?_, appliedEdges_span h.spans (mem_partitionsGenerator_iff_parts.1 hpq) hy⟩
        obtain ⟨r, hr, -, -, x, -, y', -, -, -, hz⟩ := FilterBank.mem_appliedEdges.1 hy
        rw [(FilterBank.createBinary_root hz).1]
        exact P.gram.lhs_not_lexical r hr
    · rw [update_of_ne hs] at hx
      exact h.spans s x hx
  unfold finalChart
  split
  · exact applyToplevelRules_span hupdate
  · exact hupdate

theorem hasRoot_finalChart (htotal : P.totalSpan = input.target)
    (hdone : ∀ p q, Parts p q span → p ∈ done ∧ q ∈ done) (t : Tok) :
    HasRoot (finalChart P st.chart span edges span) t ↔ Derives P.gram input t span := by
  have hclosed : ∀ p q, Parts p q span → ∀ t, (HasRoot (st.chart p) t ↔ Derives P.gram input t p) ∧
      (HasRoot (st.chart q) t ↔ Derives P.gram input t q) := by
    intro p q hpq t
    exact ⟨h.closed p (hdone p q hpq).1 t, h.closed q (hdone p q hpq).2 t⟩
  have hinner := hasRoot_finalCell (h.blank span hnew).1 hclosed hedges
  unfold finalChart
  split
  · rename_i hspan
    obtain rfl : span = input.target := hspan.symm.trans htotal
    refine hasRoot_applyToplevelRules htotal ?_ ?_ t
    · intro t
      rw [update_self]
      exact hinner t
    · intro p q hpq t
      rw [update_of_ne hpq.ne.1, update_of_ne hpq.ne.2]
      exact hclosed p q hpq t
  · rename_i hspan
    rw [update_self, hinner]
    refine ⟨And.left, fun hder => ⟨hder, fun ht => hspan ?_⟩⟩
    rw [htotal, hder.eq_target_of_top ht]

end FinalChart

/-- **One span**: once its parts are done, the span is done. -/
theorem Through.parseSpan {done : List Span}
    (h : Through P input done st) (htotal : P.totalSpan = input.target) (hnew : span ∉ done)
    (hdone : ∀ p q, Parts p q span → p ∈ done ∧ q ∈ done) :
    ∃ st', P.parseSpan st span = some st' ∧ Through P input (done ++ [span]) st' := by
  have hf : FilterBank.getCreate st span = .active [] := by
    unfold FilterBank.getCreate
    rw [(h.blank span hnew).2]
    rfl
  have hps : ∀ p ∈ partitionsGenerator span, Parts p.1 p.2 span := fun p hp => mem_partitionsGenerator_iff_parts.1 hp
  obtain ⟨mid, edges, hrun, hfmid, hedges, hchart, hfilters, hlog⟩ := applyRules_run (P := P) hps hf
  have hedges : ∀ z, z ∈ edges ↔
      ∃ p ∈ partitionsGenerator span, z ∈ P.appliedEdges false (st.chart p.1) (st.chart p.2) := by
    intro z
    rw [hedges]
    simp
  have hfinal : P.parseSpan st span = some
      { chart := finalChart P st.chart span edges
        filters := update mid.filters span (some .reset)
        log := mid.log ++ [.finalized span] } := by
    unfold FilterBank.parseSpan FilterBank.finalize finalChart
    rw [hrun, Option.map_some, hfmid, hchart]
  refine ⟨_, hfinal, ?_, ?_, ?_, finalChart_span h hnew hedges, ?_⟩
  · intro s hs t
    rcases mem_append.1 hs with hs | hs
    · have hne : s ≠ span := fun heq => hnew (heq ▸ hs)
      show HasRoot (finalChart P st.chart span edges s) t ↔ Derives P.gram input t s
      rw [finalChart_of_ne hne]
      exact h.closed s hs t
    · obtain rfl := mem_singleton.1 hs
      exact hasRoot_finalChart h hnew hedges htotal hdone t
  · intro s hs
    rcases mem_append.1 hs with hs | hs
    · have hne : s ≠ span := fun heq => hnew (heq ▸ hs)
      show update mid.filters span (some .reset) s = some .reset
      rw [update_of_ne hne, hfilters s hne]
      exact h.reset s hs
    · obtain rfl := mem_singleton.1 hs
      exact update_self ..
  · intro s hs
    have hne : s ≠ span := fun heq => hs (mem_append_right _ (mem_singleton.2 heq))
    show finalChart P st.chart span edges s = input.start.chart s ∧
      update mid.filters span (some .reset) s = none
    rw [finalChart_of_ne hne, update_of_ne hne, hfilters s hne]
    exact h.blank s fun hmem => hs (mem_append_left _ hmem)
  · rw [hlog, h.log]
    simp [spanCalls]

omit [DecidableEq Tok] [DecidableEq Info] [LinearOrder S] in
/-- Everything is derived over a span of the target. -/
theorem Derives.inside {t : Tok} (h : Derives P.gram input t s) :
    s.left < s.right ∧ input.target.left ≤ s.left ∧ s.right ≤ input.target.right := by
  induction h with
  | word hw => exact input.inside _ hw
  | unary _ _ _ hw _ => exact input.inside _ hw
  | binary _ _ _ hparts _ _ ihp ihq =>
    obtain ⟨h1, h2, h3, h4, h5⟩ := hparts
    omega
  | topUnary _ _ _ _ _ => exact ⟨input.proper, Nat.le_refl _, Nat.le_refl _⟩
  | topBinary _ _ _ _ _ _ _ _ => exact ⟨input.proper, Nat.le_refl _, Nat.le_refl _⟩

end Step

/-! ## The whole run -/

section Run

variable {P : FilterBank Tok Rule Info S type} {input : CkyInput Tok Info type}

/-- The spans in the order in which they are finalized. -/
def spanOrder (target : Span) : List Span := (range' 1 target.length).flatMap (shiftGenerator target)

/-- A list in which the parts of a span stand before it. -/
def PartsFirst : List Span → List Span → Prop
  | _, [] => True
  | done, s :: rest => s ∉ done ∧ (∀ p q, Parts p q s → p ∈ done ∧ q ∈ done) ∧ PartsFirst (done ++ [s]) rest

theorem Through.run (htotal : P.totalSpan = input.target) :
    ∀ {rest done : List Span} {st : BankState Tok Info}, Through P input done st → PartsFirst done rest →
      ∃ st', rest.foldlM P.parseSpan st = some st' ∧ Through P input (done ++ rest) st'
  | [], done, st, h, _ => ⟨st, rfl, by rwa [append_nil]⟩
  | s :: rest, done, st, h, hrest => by
    obtain ⟨hnew, hparts, hrest⟩ := hrest
    obtain ⟨mid, hmid, hthrough⟩ := h.parseSpan htotal hnew hparts
    obtain ⟨st', hst', hend⟩ := Through.run htotal hthrough hrest
    refine ⟨st', ?_, ?_⟩
    · rw [foldlM_cons, hmid]
      exact hst'
    · rwa [append_assoc] at hend

variable {target s : Span}

theorem mem_spanOrder (h : ¬ (target.left = 0 ∧ target.right = ushrtMax)) :
    s ∈ spanOrder target ↔ s.left < s.right ∧ target.left ≤ s.left ∧ s.right ≤ target.right := by
  simp only [spanOrder, mem_flatMap, mem_range'_1, mem_shiftGenerator_iff h]
  unfold Span.length
  constructor
  · rintro ⟨n, hn, hlen, hl, hr⟩
    exact ⟨by omega, hl, hr⟩
  · rintro ⟨hlt, hl, hr⟩
    exact ⟨_, by omega, rfl, hl, hr⟩

theorem spanOrder_length_le (target : Span) : (spanOrder target).Pairwise fun s t => s.length ≤ t.length := by
  unfold spanOrder
  rw [pairwise_flatMap]
  constructor
  · intro n _
    apply pairwise_of_forall_mem_list
    intro s hs t ht
    rw [(mem_shiftGenerator hs).1, (mem_shiftGenerator ht).1]
  · refine (pairwise_lt_range' (s := 1) (n := target.length) 1).imp ?_
    intro n m hnm s hs t ht
    rw [(mem_shiftGenerator hs).1, (mem_shiftGenerator ht).1]
    omega

theorem spanOrder_nodup (target : Span) : (spanOrder target).Nodup := by
  unfold spanOrder
  rw [nodup_flatMap]
  refine ⟨fun n _ => shiftGenerator_nodup target n, ?_⟩
  refine (nodup_range' (s := 1) (n := target.length)).imp ?_
  intro n m hnm s hs ht
  exact hnm ((mem_shiftGenerator hs).1.symm.trans (mem_shiftGenerator ht).1)

variable {p q : Span}

theorem Parts.length (h : Parts p q s) : p.length < s.length ∧ q.length < s.length := by
  obtain ⟨h1, h2, h3, h4, h5⟩ := h
  unfold Span.length
  omega

/-- In a list sorted by length, a shorter span stands before. -/
theorem mem_of_shorter {done rest : List Span} {u : Span}
    (hsorted : (done ++ s :: rest).Pairwise fun s t => s.length ≤ t.length) (hu : u ∈ done ++ s :: rest)
    (hlt : u.length < s.length) : u ∈ done := by
  rcases mem_append.1 hu with hu | hu
  · exact hu
  · have hle : s.length ≤ u.length := by
      rcases mem_cons.1 hu with rfl | hu
      · exact Nat.le_refl _
      · exact (pairwise_cons.1 (pairwise_append.1 hsorted).2.1).1 u hu
    omega

/-- Shorter spans come first, so the parts of a span do. -/
theorem partsFirst_of_sorted : ∀ {rest done : List Span}, (done ++ rest).Nodup →
    (done ++ rest).Pairwise (fun s t => s.length ≤ t.length) →
    (∀ s ∈ rest, ∀ p q, Parts p q s → p ∈ done ++ rest ∧ q ∈ done ++ rest) → PartsFirst done rest
  | [], _, _, _, _ => trivial
  | s :: rest, done, hnodup, hsorted, hclosed => by
    have hassoc : done ++ s :: rest = done ++ [s] ++ rest := by simp
    refine ⟨?_, ?_, partsFirst_of_sorted (hassoc ▸ hnodup) (hassoc ▸ hsorted) ?_⟩
    · intro hs
      exact disjoint_of_nodup_append hnodup hs (mem_cons_self ..)
    · intro p q hpq
      obtain ⟨hp, hq⟩ := hclosed s (mem_cons_self ..) p q hpq
      exact ⟨mem_of_shorter hsorted hp hpq.length.1, mem_of_shorter hsorted hq hpq.length.2⟩
    · intro s' hs' p q hpq
      rw [← hassoc]
      exact hclosed s' (mem_cons_of_mem _ hs') p q hpq

section

variable (h : ¬ (target.left = 0 ∧ target.right = ushrtMax))
include h

theorem spanOrder_partsFirst : PartsFirst [] (spanOrder target) := by
  apply partsFirst_of_sorted
  · exact spanOrder_nodup target
  · exact spanOrder_length_le target
  · intro s hs p q hpq
    obtain ⟨hlt, hl, hr⟩ := (mem_spanOrder h).1 hs
    obtain ⟨h1, h2, h3, h4, h5⟩ := hpq
    constructor
    · exact (mem_spanOrder h).2 ⟨h4, by omega, by omega⟩
    · exact (mem_spanOrder h).2 ⟨h5, by omega, by omega⟩

/-! ### The calls -/

section
omit h

theorem mem_spanCalls_applied : .applied p q ∈ spanCalls s ↔ Parts p q s := by
  simp [spanCalls, ← mem_partitionsGenerator_iff_parts]

theorem mem_spanCalls_finalized {t : Span} : .finalized t ∈ spanCalls s ↔ t = s := by
  simp [spanCalls]

theorem Parts.unique {t : Span} (h : Parts p q s) (h' : Parts p q t) : s = t :=
  Span.ext (h.left.symm.trans h'.left) (h.right.symm.trans h'.right)

/-- The one place of a call in the run. -/
theorem calls_split {order : List Span} (hnodup : order.Nodup) (hs : s ∈ order) (hpq : Parts p q s) :
    ∃ (l1 l2 : List Span) (ps1 ps2 : List (Span × Span)), order = l1 ++ s :: l2 ∧
      order.flatMap spanCalls = (l1.flatMap spanCalls ++ ps1.map fun p => .applied p.1 p.2) ++ .applied p q ::
        ((ps2.map fun p => .applied p.1 p.2) ++ .finalized s :: l2.flatMap spanCalls) ∧
      .applied p q ∉ (l1.flatMap spanCalls ++ ps1.map fun p => .applied p.1 p.2) ∧
      .applied p q ∉ (ps2.map fun p => .applied p.1 p.2) ++ .finalized s :: l2.flatMap spanCalls := by
  obtain ⟨l1, l2, rfl⟩ := append_of_mem hs
  obtain ⟨ps1, ps2, hps⟩ := append_of_mem (mem_partitionsGenerator_iff_parts.2 hpq)
  have hpsnodup := partitionsGenerator_nodup s
  rw [hps] at hpsnodup
  have hother : ∀ l : List Span, s ∉ l → .applied p q ∉ l.flatMap spanCalls := by
    intro l hsl hmem
    obtain ⟨t, ht, hmem⟩ := mem_flatMap.1 hmem
    exact hsl (hpq.unique (mem_spanCalls_applied.1 hmem) ▸ ht)
  have hnodup' := nodup_append.1 hnodup
  have hl1 : s ∉ l1 := fun h => hnodup'.2.2 s h s (mem_cons_self ..) rfl
  have hl2 : s ∉ l2 := (nodup_cons.1 hnodup'.2.1).1
  have hpsnodup' := nodup_append.1 hpsnodup
  have hps1 : (p, q) ∉ ps1 := fun h => hpsnodup'.2.2 _ h _ (mem_cons_self ..) rfl
  have hps2 : (p, q) ∉ ps2 := (nodup_cons.1 hpsnodup'.2.1).1
  refine ⟨l1, l2, ps1, ps2, rfl, ?_, ?_, ?_⟩
  · simp [spanCalls, hps]
  · rw [mem_append, not_or]
    refine ⟨hother l1 hl1, ?_⟩
    simpa using hps1
  · rw [mem_append, mem_cons]
    rintro (h | h | h)
    · exact hps2 (by simpa using h)
    · cases h
    · exact hother l2 hl2 h

end

theorem inOrder_spanOrder : InOrder target ((spanOrder target).flatMap spanCalls) := by
  have hin : ∀ {p q s : Span}, Parts p q s → target.left ≤ s.left → s.right ≤ target.right → s ∈ spanOrder target := by
    intro p q s hpq hl hr
    obtain ⟨h1, h2, h3, h4, h5⟩ := hpq
    exact (mem_spanOrder h).2 ⟨by omega, hl, hr⟩
  constructor
  · intro s p q hl hr hpq
    obtain ⟨l1, l2, ps1, ps2, -, hcalls, hbefore, hafter⟩ := calls_split (spanOrder_nodup target) (hin hpq hl hr) hpq
    rw [hcalls, count_append, count_cons_self, count_eq_zero_of_not_mem hbefore,
      count_eq_zero_of_not_mem hafter]
  · intro p q hmem
    obtain ⟨s, hs, hmem⟩ := mem_flatMap.1 hmem
    obtain ⟨-, hl, hr⟩ := (mem_spanOrder h).1 hs
    exact ⟨s, hl, hr, mem_spanCalls_applied.1 hmem⟩
  · intro s p q before after hpq hlog
    have hmem : .applied p q ∈ (spanOrder target).flatMap spanCalls := by
      rw [hlog]
      exact mem_append_right _ (mem_cons_self ..)
    obtain ⟨t, ht, hmem⟩ := mem_flatMap.1 hmem
    obtain rfl := hpq.unique (mem_spanCalls_applied.1 hmem)
    obtain ⟨l1, l2, ps1, ps2, horder, hcalls, hbefore, hafter⟩ := calls_split (spanOrder_nodup target) ht hpq
    rw [hcalls] at hlog
    obtain ⟨rfl, -, rfl⟩ := (append_cons_inj_of_notMem hbefore hafter).1 hlog
    -- the parts stand before the span in the order of the run
    have hparts : p ∈ l1 ∧ q ∈ l1 := by
      have hsorted := spanOrder_length_le target
      have hmemp : p ∈ spanOrder target ∧ q ∈ spanOrder target := by
        obtain ⟨hlt, hl, hr⟩ := (mem_spanOrder h).1 ht
        obtain ⟨h1, h2, h3, h4, h5⟩ := hpq
        exact ⟨(mem_spanOrder h).2 ⟨h4, by omega, by omega⟩, (mem_spanOrder h).2 ⟨h5, by omega, by omega⟩⟩
      rw [horder] at hsorted hmemp
      exact ⟨mem_of_shorter hsorted hmemp.1 hpq.length.1, mem_of_shorter hsorted hmemp.2 hpq.length.2⟩
    have hfin : ∀ u ∈ l1, .finalized u ∈ l1.flatMap spanCalls :=
      fun u hu => mem_flatMap.2 ⟨u, hu, mem_spanCalls_finalized.2 rfl⟩
    refine ⟨mem_append_left _ (hfin p hparts.1), mem_append_left _ (hfin q hparts.2), ?_, ?_⟩
    · rw [mem_append, not_or]
      constructor
      · intro hmem
        obtain ⟨u, hu, hmem⟩ := mem_flatMap.1 hmem
        obtain rfl := mem_spanCalls_finalized.1 hmem
        have hnodup := spanOrder_nodup target
        rw [horder] at hnodup
        exact (nodup_append.1 hnodup).2.2 s hu s (mem_cons_self ..) rfl
      · simp
    · exact mem_append_right _ (mem_cons_self ..)

/-! ### The loops -/

theorem unitSpans_eq : FilterBank.unitSpans target = shiftGenerator target 1 := by
  unfold FilterBank.unitSpans shiftGenerator
  rw [if_neg h]
  rfl

end

section

variable (P : FilterBank Tok Rule Info S type)

theorem parseSpan_unit (hs : s.length = 1) (st : BankState Tok Info) : P.parseSpan st s = some (P.finalize st s) := by
  have hnone : partitionsGenerator s = [] := by
    apply eq_nil_iff_forall_not_mem.2
    rintro ⟨p, q⟩ hpq
    have hparts := mem_partitionsGenerator_iff_parts.1 hpq
    obtain ⟨h1, h2, h3, h4, h5⟩ := hparts
    unfold Span.length at *
    omega
  unfold FilterBank.parseSpan
  rw [hnone]
  rfl

theorem parseLength_eq (h : ¬ (target.left = 0 ∧ target.right = ushrtMax)) (st : BankState Tok Info) (len : Nat) :
    P.parseLength target st len = (shiftGenerator target len).foldlM P.parseSpan st := by
  unfold FilterBank.parseLength
  split
  · rename_i hlen
    subst hlen
    rw [unitSpans_eq h]
    have hunit : ∀ (l : List Span) (st : BankState Tok Info), (∀ s ∈ l, s.length = 1) →
        some (l.foldl P.finalize st) = l.foldlM P.parseSpan st := by
      intro l
      induction l with
      | nil => exact fun _ _ => rfl
      | cons s l ih =>
        intro st hl
        rw [foldlM_cons, parseSpan_unit P (hl s (mem_cons_self ..))]
        exact ih _ fun u hu => hl u (mem_cons_of_mem _ hu)
    exact hunit _ st fun s hs => (mem_shiftGenerator hs).1
  · rfl

/-- The loops visit the spans of `spanOrder`. -/
theorem parseLengths_eq (h : ¬ (target.left = 0 ∧ target.right = ushrtMax)) :
    ∀ (lens : List Nat) (st : BankState Tok Info), lens.foldlM (P.parseLength target) st =
      (lens.flatMap (shiftGenerator target)).foldlM P.parseSpan st
  | [], _ => rfl
  | len :: lens, st => by
    rw [foldlM_cons, flatMap_cons, foldlM_append, parseLength_eq P h]
    exact congrArg _ (funext fun st' => parseLengths_eq h lens st')

end

/-- **parse_cky leaves the deduction closure in the chart**, item for item, and
asks for every partition once and in time. The one target it fails on is the
span of `USHRT_MAX` words, where the 16-bit counter of the lengths wraps around
before it passes the end. -/
theorem parseCky_closure_iff (P : FilterBank Tok Rule Info S type) (input : CkyInput Tok Info type)
    (htotal : P.totalSpan = input.target) :
    ParsesClosure P input ↔ ¬ (input.target.left = 0 ∧ input.target.right = ushrtMax) := by
  constructor
  · rintro ⟨st, hst, -⟩ ⟨hl, hr⟩
    have hlen : input.target.length = ushrtMax := by
      unfold Span.length
      rw [hl, hr]
      rfl
    unfold FilterBank.parseCky lengths at hst
    rw [hlen] at hst
    cases hst
  · intro h
    have hlen : input.target.length < ushrtMax := by
      have hbound := input.target.bound
      have hproper := input.proper
      unfold Span.length
      omega
    obtain ⟨st, hrun, hthrough⟩ := (Through.start P input).run htotal (spanOrder_partsFirst h)
    have htarget : input.target ∈ spanOrder input.target :=
      (mem_spanOrder h).2 ⟨input.proper, Nat.le_refl _, Nat.le_refl _⟩
    -- the last call finds the target finalized
    have hlast : P.finalize st input.target = st := by
      have hf : FilterBank.getCreate st input.target = .reset := by
        unfold FilterBank.getCreate
        rw [hthrough.reset _ htarget]
        rfl
      unfold FilterBank.finalize
      rw [hf]
      rw [← hthrough.reset _ htarget, update_eq_self]
    refine ⟨st, ?_, hthrough.spans, ?_, ?_⟩
    · unfold FilterBank.parseCky lengths
      rw [if_pos hlen]
      show ((range' 1 input.target.length).foldlM (P.parseLength input.target) input.start).map _ = some st
      rw [parseLengths_eq P h]
      show ((spanOrder input.target).foldlM P.parseSpan input.start).map _ = some st
      rw [hrun, Option.map_some, hlast]
    · intro t s
      by_cases hs : s ∈ spanOrder input.target
      · exact hthrough.closed s hs t
      · -- outside the target there are neither words nor derivations
        have hnot := mt (mem_spanOrder h).2 hs
        rw [(hthrough.blank s hs).1]
        constructor
        · rintro ⟨x, hx, -⟩
          obtain ⟨hword, rfl⟩ := CkyInput.mem_start.1 hx
          exact absurd (input.inside x hword) hnot
        · intro hder
          exact absurd hder.inside hnot
    · rw [hthrough.log]
      exact inOrder_spanOrder h

end Run

/-! A word grammar: `0` is a foreign word, `1` a tag, `2` the toplevel tag. The
rules are `1 -> 0`, `1 -> 1 1` and `2 -> 1`. -/

def smallType : Nat → TokenType
  | 0 => .foreign
  | 1 => .tag
  | _ => .top

inductive SmallRule where
  | lexical
  | join
  | top
deriving DecidableEq

def smallGrammar : BinarizedGrammar Nat SmallRule smallType where
  allRules := [.lexical, .join, .top]
  ruleRhsSize := fun r => match r with | .lexical => 1 | .join => 2 | .top => 1
  ruleRhs := fun r _ => match r with | .lexical => 0 | .join => 1 | .top => 1
  lhsTop := fun r => match r with | .top => true | _ => false
  ruleLhs := fun r => match r with | .lexical => 1 | .join => 1 | .top => 2
  lhsTop_iff := by decide
  lhs_not_lexical := by decide
  rhs_size := by decide
  rhs_not_top := by decide
  unary_foreign := by decide

def smallBank (total : Span) : FilterBank Nat SmallRule Unit Nat smallType where
  gram := smallGrammar
  ruleHeuristic := fun _ => 0
  unaryInfos := fun _ _ => [()]
  binaryInfos := fun _ _ _ => [()]
  unaryInfos_ne := fun _ _ => cons_ne_nil _ _
  binaryInfos_ne := fun _ _ _ => cons_ne_nil _ _
  totalSpan := total

/-- A sentence whose words are all `0`. -/
def smallInput (n : Nat) (hpos : 0 < n) (hn : n ≤ ushrtMax) : CkyInput Nat Unit smallType where
  target := ⟨0, n, Nat.zero_le _, hn⟩
  proper := hpos
  words := (finRange n).map fun i : Fin n => ⟨0, ⟨i, i + 1, Nat.le_succ _, Nat.le_trans i.2 hn⟩, ()⟩
  foreign := by
    intro w hw
    obtain ⟨i, -, rfl⟩ := mem_map.1 hw
    rfl
  inside := by
    intro w hw
    obtain ⟨i, -, rfl⟩ := mem_map.1 hw
    exact ⟨Nat.lt_succ_self _, Nat.zero_le _, i.2⟩

theorem parseCky_closure_iff_twoWords :
    ParsesClosure (smallBank ⟨0, 2, by decide, by decide⟩) (smallInput 2 (by decide) (by decide)) :=
  (parseCky_closure_iff (smallBank ⟨0, 2, by decide, by decide⟩) (smallInput 2 (by decide) (by decide)) rfl).2
    (by decide)

/-- With 65535 words there is no result. -/
theorem parseCky_ushrtMax :
    ¬ ParsesClosure (smallBank ⟨0, ushrtMax, by decide, Nat.le_refl _⟩) (smallInput ushrtMax (by decide) (Nat.le_refl _)) := by
  rintro ⟨st, hst, -⟩
  cases hst

end Sbmt.Search
