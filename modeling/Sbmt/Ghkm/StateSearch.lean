import Sbmt.Lib.BestFirst
import Sbmt.Ghkm.State

/-!
# The search for left-hand sides

| here | there |
| --- | --- |
| `insertState` | `std::set<State*, State::is_smaller>::insert` |
| `addSuccessor`, `addSuccessorStatesToQueue` | `add_successor_states_to_queue` (`xrs-extract/c++-src/Derivation.C:682-742`) |
| `searchLoop`, `extractStates` | steps 1 and 2 of `extract_rules` (`:247-334`) |

`FAIL_IF_TOO_BIG` is `false` (`defs.h:34`). A state is told from the others by its generation time, as by its
address there.

Main result: where `_max_to_extract` does not stop the search, it closes the smallest admissible fragment and the
admissible ones within the limit on expansions, each once (`extractStates_exact`). `add_successor_states_to_queue`
looks for duplicates in the open queue only. A successor has more nodes opened than the state it comes from, so it is
ordered after it and cannot have been closed; a preterminal that is lexicalized once more gives a duplicate of the current
state, which still is in the queue.
-/

namespace Sbmt.Ghkm

open Sbmt.Lib Relation List

/-! ## Definitions -/

/-- An element that is neither smaller nor larger than one of the set is not inserted. -/
def insertState (less : State → State → Bool) (x : State) : List State → List State
  | [] => [x]
  | y :: q => if less x y then x :: y :: q else if less y x then y :: insertState less x q else y :: q

/-- "Clone current state", which is not minimal. -/
def State.clone (s : State) (idd : Nat) : State := { s.copy idd with isMinimal := false }

variable (cfg : Settings)

/-- Expand or lexicalize the node that stands for `curNode`. -/
def State.expandLeaf (s : State) (curNode : RuleNode) : State :=
  match s.findNoderef curNode.treenodeRef with
  | none => s
  | some expansionNode =>
    if curNode.node.isInternal then s.expandSuccessors cfg expansionNode else s.lexicalize expansionNode

def newState (root : NodeRef) (curState : State) (idd : Nat) (curNode : RuleNode) : State :=
  expandStateToAdmissibleFrontier cfg root ((curState.clone idd).expandLeaf cfg curNode)

/-- The body of the loop over the nodes of `curState`. The queue comes with the number of states that have been created. -/
def addSuccessor (root : NodeRef) (curState : State) (acc : List State × Nat) (curNode : RuleNode) :
    List State × Nat :=
  if curNode.isInternal then acc
  else if curNode.node.data.frontierNode && decide (curNode.path ≠ root.path) && curNode.lexicalized then acc
  else if acc.1.any fun elState => elState.isDuplicateState (newState cfg root curState acc.2 curNode) then
    (acc.1, acc.2 + 1)
  else (insertState (State.isSmaller cfg.printAll) (newState cfg root curState acc.2 curNode) acc.1, acc.2 + 1)

def addSuccessorStatesToQueue (root : NodeRef) (curState : State) (acc : List State × Nat) :
    List State × Nat :=
  curState.lhs.foldl (addSuccessor cfg root curState) acc

def getSmallestAdmissibleState (tn : TreeNode) (idd : Nat) : State :=
  { expandStateToAdmissibleFrontier cfg ⟨[], tn⟩ (State.new (RuleNode.new ⟨[], tn⟩ 0) idd) with isMinimal := true }

structure Queues where
  openQueue : List State
  closedQueue : List State
  idd : Nat

namespace Queues

def curSize (q : Queues) : Nat := q.closedQueue.length + q.openQueue.length

/-- "Pop out the first element of openQueue", and close it. -/
def close (q : Queues) (curState : State) (acc : List State × Nat) : Queues where
  openQueue := acc.1.eraseP fun s => decide (s.generationTime = curState.generationTime)
  closedQueue := insertState (State.isSmaller cfg.printAll) curState q.closedQueue
  idd := acc.2

end Queues

/-- `none` where the fuel does not last. -/
def searchLoop (cfg : Settings) (root : NodeRef) : Nat → Queues → Option Queues
  | 0, _ => none
  | fuel + 1, q =>
    match q.openQueue with
    | [] => some q
    | curState :: _ =>
      if cfg.maxToExtract ≤ (q.curSize : Int) ∨ cfg.maxRuleExpansions < (curState.nbExpansions : Int) then some q
      else searchLoop cfg root fuel
        (q.close cfg curState (addSuccessorStatesToQueue cfg root curState (q.openQueue, q.idd)))

/-- The queues before the first turn of the loop. -/
def startQueues (tn : TreeNode) (idd : Nat) : Queues where
  openQueue := insertState (State.isSmaller cfg.printAll) (getSmallestAdmissibleState cfg tn idd) []
  closedQueue := []
  idd := idd + 1

/-- "Move the minimal rule in openQueue (if it is still there) to closedQueue". -/
def moveMinimal (necessaryState : State) (q : Queues) : List State :=
  q.openQueue.foldl
    (fun closed s =>
      if s.generationTime = necessaryState.generationTime then insertState (State.isSmaller cfg.printAll) s closed else closed)
    q.closedQueue

/-- The closed queue, from which the rules are made. -/
def extractStates (tn : TreeNode) (fuel idd : Nat) : Option (List State) :=
  (searchLoop cfg ⟨[], tn⟩ fuel (startQueues cfg tn idd)).map (moveMinimal cfg (getSmallestAdmissibleState cfg tn idd))

/-! ## The order of the queue -/

section Order

variable {tn : TreeNode} {cfg : Settings} {s s1 s2 x : State} {q : List State}

/-- What the states are ordered by, in `print_all` mode. -/
def State.key (tn : TreeNode) (s : State) : (Nat ×ₗ Nat) ×ₗ Nat := toLex (fragmentRank tn s.opened, s.generationTime)

theorem isSmaller_iff (h1 : Counted tn s1) (h2 : Counted tn s2) :
    State.isSmaller true s1 s2 = true ↔ s1.key tn < s2.key tn := by
  unfold State.isSmaller State.key fragmentRank
  rw [Prod.Lex.toLex_lt_toLex, Prod.Lex.toLex_lt_toLex, h1.ignored, h2.ignored, h1.ors, h2.ors, h1.exp, h2.exp, h1.lex, h2.lex]
  simp only [if_true, lt_irrefl, if_false, toLex_inj, Prod.mk.injEq]
  grind

/-- States of different generation times, all counted right. -/
structure Ranked (tn : TreeNode) (q : List State) : Prop where
  counted : ∀ s ∈ q, Counted tn s
  times : (q.map State.generationTime).Nodup

theorem Ranked.skip {y : State} (h : Ranked tn (x :: y :: q)) : Ranked tn (x :: q) :=
  have hsub : (x :: q).Sublist (x :: y :: q) := (sublist_cons_self y q).cons_cons x
  ⟨fun s hs => h.counted s (hsub.subset hs), h.times.sublist (hsub.map _)⟩

theorem insertState_perm (h : Ranked tn (x :: q)) : (insertState (State.isSmaller true) x q).Perm (x :: q) := by
  induction q with
  | nil => exact .refl _
  | cons y q ih =>
    have hx := h.counted x mem_cons_self
    have hy := h.counted y (mem_cons_of_mem _ mem_cons_self)
    have htimes : x.generationTime ≠ y.generationTime := fun heq => by simpa [heq] using h.times
    have hne : x.key tn ≠ y.key tn := fun heq => htimes (congrArg (fun k => (ofLex k).2) heq)
    simp only [insertState, isSmaller_iff hx hy, isSmaller_iff hy hx]
    split
    · exact .refl _
    · rename_i hxy
      rw [if_pos ((le_of_not_gt hxy).lt_of_ne hne.symm)]
      exact ((ih h.skip).cons y).trans (.swap x y q)

theorem insertState_sorted (h : Ranked tn (x :: q)) (hq : q.Pairwise fun a b => a.key tn < b.key tn) :
    (insertState (State.isSmaller true) x q).Pairwise fun a b => a.key tn < b.key tn := by
  induction q with
  | nil => exact pairwise_singleton _ _
  | cons y q ih =>
    have hx := h.counted x mem_cons_self
    have hy := h.counted y (mem_cons_of_mem _ mem_cons_self)
    obtain ⟨hyq, hq'⟩ := pairwise_cons.mp hq
    simp only [insertState, isSmaller_iff hx hy, isSmaller_iff hy hx]
    split
    · rename_i hxy
      refine pairwise_cons.mpr ⟨fun a ha => ?_, hq⟩
      rcases mem_cons.mp ha with rfl | ha
      · exact hxy
      · exact hxy.trans (hyq a ha)
    · split
      · rename_i hyx
        refine pairwise_cons.mpr ⟨fun a ha => ?_, ih h.skip hq'⟩
        rcases mem_cons.mp ((insertState_perm h.skip).mem_iff.mp ha) with rfl | ha
        · exact hyx
        · exact hyq a ha
      · exact hq

end Order

/-! ## The successors of a state -/

section Successors

variable {tn : TreeNode} {cfg : Settings} {cur s : State} {closed old : List State} {acc : List State × Nat}
  {n : RuleNode} {ns : List RuleNode} {i : Nat}

theorem findNoderef_eq (h : Laid tn s) (hi : s.lhs[i]? = some n) : s.findNoderef n.treenodeRef = some i := by
  unfold State.findNoderef
  have hlt := (List.getElem?_eq_some_iff.mp hi).1
  rw [findIdx?_eq_some_iff_getElem]
  refine ⟨hlt, ?_, ?_⟩
  · rw [decide_eq_true_eq, (List.getElem?_eq_some_iff.mp hi).2]
  · intro j hj
    rw [decide_eq_true_eq]
    intro hpath
    have hj' := getElem?_eq_getElem (hj.trans hlt)
    exact absurd (h.index_eq hj' hi hpath) hj.ne

/-- What opening one leaf comes to, for all leaves that are variables. -/
theorem grows_iff (h : Laid tn s) (hadm : Admissible tn s.opened) {G : Finset (List Nat)} :
    Grows tn s.opened G ↔
      ∃ n ∈ s.lhs, n.opened = false ∧ IsLeast (Above tn (insert n.path s.opened)) G := by
  constructor
  · rintro ⟨p, hp, k, t, ht, hnew, hleast⟩
    obtain ⟨n, hn, hpath⟩ := mem_map.mp (h.mem_paths.mpr (.inr ⟨p, k, t, rfl, hp, ht⟩))
    rw [← hpath] at hnew hleast
    refine ⟨n, hn, ?_, hleast⟩
    rwa [h.opened_iff hn, Bool.not_eq_true] at hnew
  · rintro ⟨n, hn, ho, hleast⟩
    have hnew : n.path ∉ s.opened := by
      rw [h.opened_iff hn, ho]
      exact Bool.false_ne_true
    rcases eq_nil_or_concat n.path with heq | ⟨p, k, heq⟩
    · exact absurd hadm.root (heq ▸ hnew)
    · rw [concat_eq_append] at heq
      obtain ⟨m, hm, rfl, hsuc⟩ := h.parents n hn p k heq
      have href := h.refs n hn
      rw [heq] at hnew hleast href
      exact ⟨m.path, (h.opened_iff hm).mpr (RuleNode.opened_iff.mpr (.inl hsuc)), k, n.node, href, hnew, hleast⟩

/-- The queue, after the leaves `ns` of `cur` have been handled: it was `old`. -/
structure Adding (tn : TreeNode) (cur : State) (closed old : List State) (ns : List RuleNode) (acc : List State × Nat) :
    Prop where
  proper : ∀ s ∈ acc.1, Proper tn s
  admissible : ∀ s ∈ acc.1, Admissible tn s.opened
  sorted : acc.1.Pairwise fun a b => a.key tn < b.key tn
  times : ((acc.1 ++ closed).map State.generationTime).Nodup
  created : ∀ s ∈ acc.1 ++ closed, s.generationTime ≤ acc.2
  nodup : (acc.1.map State.opened).Nodup
  mem : ∀ G, G ∈ acc.1.map State.opened ↔ G ∈ old.map State.opened ∨
    ∃ n ∈ ns, n.opened = false ∧ IsLeast (Above tn (insert n.path cur.opened)) G
  keeps : old ⊆ acc.1

/-- Another state has been created, and dropped. -/
theorem Adding.dropped (h : Adding tn cur closed old ns acc) (ho : n.opened = true ∨
    ∃ G ∈ acc.1.map State.opened, IsLeast (Above tn (insert n.path cur.opened)) G) {idd : Nat} (hidd : acc.2 ≤ idd) :
    Adding tn cur closed old (ns ++ [n]) (acc.1, idd) :=
  { h with
    created s hs := (h.created s hs).trans hidd
    mem G := by
      rw [h.mem]
      simp only [mem_append, mem_singleton]
      constructor
      · exact Or.imp_right fun ⟨m, hm, hrest⟩ => ⟨m, .inl hm, hrest⟩
      · rintro (hG | ⟨m, hm | rfl, hmo, hleast⟩)
        · exact .inl hG
        · exact .inr ⟨m, hm, hmo, hleast⟩
        · rcases ho with ho | ⟨G', hG', hleast'⟩
          · rw [ho] at hmo
            cases hmo
          · rw [hleast.unique hleast']
            exact (h.mem G').mp hG' }

/-- Another state has been created, and inserted. -/
theorem Adding.inserted (h : Adding tn cur closed old ns acc) (hs : Proper tn s) (ho : n.opened = false)
    (hleast : IsLeast (Above tn (insert n.path cur.opened)) s.opened) (hnew : s.opened ∉ acc.1.map State.opened)
    (htime : s.generationTime = acc.2 + 1) :
    Adding tn cur closed old (ns ++ [n]) (insertState (State.isSmaller true) s acc.1, acc.2 + 1) := by
  have hfresh : s.generationTime ∉ (acc.1 ++ closed).map State.generationTime := by
    intro hmem
    obtain ⟨m, hm, heq⟩ := mem_map.mp hmem
    have hle := h.created m hm
    omega
  have htimes : ((s :: acc.1 ++ closed).map State.generationTime).Nodup := nodup_cons.mpr ⟨hfresh, h.times⟩
  have hranked : Ranked tn (s :: acc.1) := by
    refine ⟨fun m hm => ?_, htimes.sublist ((sublist_append_left _ _).map _)⟩
    rcases mem_cons.mp hm with rfl | hm
    · exact hs.toCounted
    · exact (h.proper m hm).toCounted
  have hperm := insertState_perm hranked
  refine ⟨?_, ?_, insertState_sorted hranked h.sorted, ?_, ?_, ?_, ?_, ?_⟩
  · intro m hm
    rcases mem_cons.mp (hperm.mem_iff.mp hm) with rfl | hm
    · exact hs
    · exact h.proper m hm
  · intro m hm
    rcases mem_cons.mp (hperm.mem_iff.mp hm) with rfl | hm
    · exact hleast.1.1
    · exact h.admissible m hm
  · exact ((hperm.append_right closed).map _).nodup_iff.mpr htimes
  · intro m hm
    rcases mem_cons.mp ((hperm.append_right closed).mem_iff.mp hm) with rfl | hm
    · exact htime.le
    · exact (h.created m hm).trans (Nat.le_succ _)
  · exact (hperm.map _).nodup_iff.mpr (nodup_cons.mpr ⟨hnew, h.nodup⟩)
  · intro G
    rw [(hperm.map _).mem_iff, map_cons, mem_cons, h.mem]
    simp only [mem_append, mem_singleton]
    constructor
    · rintro (rfl | hG | ⟨m, hm, hrest⟩)
      · exact .inr ⟨n, .inr rfl, ho, hleast⟩
      · exact .inl hG
      · exact .inr ⟨m, .inl hm, hrest⟩
    · rintro (hG | ⟨m, hm | rfl, hmo, hG⟩)
      · exact .inr (.inl hG)
      · exact .inr (.inr ⟨m, hm, hmo, hG⟩)
      · exact .inl (hG.unique hleast)
  · exact fun m hm => hperm.mem_iff.mpr (mem_cons_of_mem _ (h.keeps hm))

/-- Lexicalizing once more what is lexicalized changes no node. -/
theorem lexicalize_lhs (hi : s.lhs[i]? = some n) (hlex : n.lexicalized = true) : (s.lexicalize i).lhs = s.lhs := by
  apply ext_getElem?
  intro j
  by_cases hij : i = j
  · subst hij
    rw [hi]
    exact State.getElem?_lexicalize.mpr ⟨n, hi, by rw [if_pos rfl, ← hlex]⟩
  · unfold State.lexicalize
    simp [hij]

theorem Laid.congr {s' : State} (h : Laid tn s) (heq : s'.lhs = s.lhs) : Laid tn s' := by
  obtain ⟨hrefs, hnodup, hfirst, hsucs, hlater, hparents, hleaves⟩ := h
  constructor <;> rw [heq] <;> assumption

theorem State.opened_congr {s' : State} (heq : s'.lhs = s.lhs) : s'.opened = s.opened := by
  unfold State.opened
  rw [heq]

theorem clone_proper (h : Proper tn s) (idd : Nat) : Proper tn (s.clone idd) :=
  ⟨h.toLaid.congr rfl, ⟨h.exp, h.lex, h.ignored, h.ors⟩⟩

/-- A variable is opened, and what has to be opened then. -/
theorem newState_spec (hcfg : cfg.Plain) (h : Proper tn cur) (hn : n ∈ cur.lhs) (ho : n.opened = false) (idd : Nat) :
    Proper tn (newState cfg ⟨[], tn⟩ cur idd n) ∧
      IsLeast (Above tn (insert n.path cur.opened)) (newState cfg ⟨[], tn⟩ cur idd n).opened ∧
      (newState cfg ⟨[], tn⟩ cur idd n).generationTime = idd + 1 := by
  obtain ⟨i, hi⟩ := mem_iff_getElem?.mp hn
  have hclone := clone_proper h idd
  have hleaf : Proper tn ((cur.clone idd).expandLeaf cfg n) ∧
      ((cur.clone idd).expandLeaf cfg n).opened = insert n.path cur.opened ∧
      ((cur.clone idd).expandLeaf cfg n).generationTime = idd + 1 := by
    simp only [State.expandLeaf, findNoderef_eq hclone.toLaid hi]
    by_cases htree : n.node.isInternal = true
    · rw [if_pos htree]
      exact expandSuccessors_spec hcfg hclone hi ho htree
    · rw [if_neg htree]
      exact lexicalize_spec hclone hi ho (Bool.eq_false_iff.mpr htree)
  obtain ⟨hproper, hopened, htime⟩ := hleaf
  obtain ⟨hproper', hleast, htime'⟩ := expandState_spec hcfg hproper
  rw [hopened] at hleast
  exact ⟨hproper', hleast, htime'.trans htime⟩

/-- A preterminal that is lexicalized once more: no node changes, and no more has to be opened. -/
theorem newState_lexicalized (cfg : Settings) (h : Proper tn cur) (hadm : Admissible tn cur.opened) (hn : n ∈ cur.lhs)
    (hlex : n.lexicalized = true) (idd : Nat) :
    (newState cfg ⟨[], tn⟩ cur idd n).lhs = cur.lhs ∧
      (newState cfg ⟨[], tn⟩ cur idd n).nbExpansions = cur.nbExpansions ∧
      (newState cfg ⟨[], tn⟩ cur idd n).nbOrExpansions = cur.nbOrExpansions := by
  obtain ⟨i, hi⟩ := mem_iff_getElem?.mp hn
  have hleaf : ¬ n.node.isInternal = true := Bool.eq_false_iff.mp (h.leaves n hn hlex)
  have hlhs : ((cur.clone idd).lexicalize i).lhs = cur.lhs := lexicalize_lhs (s := cur.clone idd) hi hlex
  have hset : ∀ j, Settled ((cur.clone idd).lexicalize i) j := by
    intro j m hj
    rw [hlhs] at hj
    have hm := mem_of_getElem? hj
    by_cases ho : m.opened = true
    · exact .inl ho
    · have hout : m.path ∉ cur.opened := fun hin => ho ((h.toLaid.opened_iff hm).mp hin)
      refine .inr ⟨?_, fun hnil => hout (hnil ▸ hadm.root)⟩
      by_contra hf
      exact hout (h.toLaid.mem_of_forced hm (.inl (Bool.eq_false_iff.mpr hf)) hadm le_rfl)
  unfold newState
  simp only [State.expandLeaf, findNoderef_eq (clone_proper h idd).toLaid hi, if_neg hleaf]
  rw [expandState_settled (h.toLaid.congr hlhs) hset]
  exact ⟨hlhs, rfl, rfl⟩

/-- **One leaf.** -/
theorem Adding.step (hcfg : cfg.Plain) (hall : cfg.printAll = true) (hcur : Proper tn cur)
    (hadm : Admissible tn cur.opened) (hmem : cur ∈ acc.1) (hn : n ∈ cur.lhs) (h : Adding tn cur closed old ns acc) :
    Adding tn cur closed old (ns ++ [n]) (addSuccessor cfg ⟨[], tn⟩ cur acc n) := by
  have hstay : n.opened = true → ∀ idd, acc.2 ≤ idd → Adding tn cur closed old (ns ++ [n]) (acc.1, idd) :=
    fun ho idd hidd => h.dropped (.inl ho) hidd
  -- a state is a duplicate exactly if the queue has one with the same nodes opened
  have hdup : ∀ s' : State, Laid tn s' → (∀ el ∈ acc.1, el.opened = s'.opened → el.nbExpansions = s'.nbExpansions) →
      s'.nbOrExpansions = 0 →
      ((acc.1.any fun el => el.isDuplicateState s') = true ↔ s'.opened ∈ acc.1.map State.opened) := by
    intro s' hs' hexp hors
    rw [any_eq_true, mem_map]
    refine exists_congr fun el => and_congr_right fun hel => ?_
    exact isDuplicateState_iff (h.proper el hel).toLaid hs' (hexp el hel) ((h.proper el hel).ors.trans hors.symm)
  unfold addSuccessor
  by_cases hint : n.isInternal = true
  · rw [if_pos hint]
    exact hstay (RuleNode.opened_iff.mpr (.inl (RuleNode.isInternal_iff.mp hint))) acc.2 le_rfl
  rw [if_neg hint]
  by_cases hskip : (n.node.data.frontierNode && decide (n.path ≠ []) && n.lexicalized) = true
  · rw [if_pos hskip]
    exact hstay (RuleNode.opened_iff.mpr (.inr (Bool.and_eq_true_iff.mp hskip).2)) acc.2 le_rfl
  rw [if_neg hskip, hall]
  cases hlex : n.lexicalized with
  | true =>
    obtain ⟨hlhs, hexp, hors⟩ := newState_lexicalized cfg hcur hadm hn hlex acc.2
    have hopened := State.opened_congr hlhs
    rw [if_pos]
    · exact hstay (RuleNode.opened_iff.mpr (.inr hlex)) (acc.2 + 1) (Nat.le_succ _)
    · refine (hdup _ (hcur.toLaid.congr hlhs) (fun el hel heq => ?_) (hors.trans hcur.ors)).mpr ?_
      · rw [(h.proper el hel).exp, heq, hopened, hexp, hcur.exp]
      · rw [hopened]
        exact mem_map_of_mem hmem
  | false =>
    have ho : n.opened = false := Bool.or_eq_false_iff.mpr ⟨Bool.eq_false_iff.mpr hint, hlex⟩
    obtain ⟨hproper, hleast, htime⟩ := newState_spec hcfg hcur hn ho acc.2
    have hany := hdup _ hproper.toLaid (fun el hel heq => by rw [(h.proper el hel).exp, heq, ← hproper.exp]) hproper.ors
    split
    · rename_i hdropped
      exact h.dropped (.inr ⟨_, hany.mp hdropped, hleast⟩) (Nat.le_succ _)
    · rename_i hnew
      exact h.inserted hproper ho hleast (fun hin => hnew (hany.mpr hin)) htime

/-- **All leaves**: the queue gets what `cur` grows into. -/
theorem addSuccessorStates_spec (hcfg : cfg.Plain) (hall : cfg.printAll = true) (hcur : Proper tn cur)
    (hadm : Admissible tn cur.opened) (hmem : cur ∈ old) (h : Adding tn cur closed old [] acc) :
    Adding tn cur closed old cur.lhs (addSuccessorStatesToQueue cfg ⟨[], tn⟩ cur acc) := by
  have hfold : ∀ (rest ns : List RuleNode) (acc : List State × Nat), ns ++ rest = cur.lhs →
      Adding tn cur closed old ns acc →
      Adding tn cur closed old cur.lhs (rest.foldl (addSuccessor cfg ⟨[], tn⟩ cur) acc) := by
    intro rest
    induction rest with
    | nil =>
      intro ns acc heq h
      rw [append_nil] at heq
      rw [← heq]
      exact h
    | cons n rest ih =>
      intro ns acc heq h
      have hn : n ∈ cur.lhs := heq ▸ mem_append_right ns mem_cons_self
      refine ih (ns ++ [n]) _ (by rw [append_assoc]; exact heq) ?_
      exact h.step hcfg hall hcur hadm (h.keeps hmem) hn
  exact hfold cur.lhs [] acc rfl h

end Successors

/-! ## The loop -/

section Loop

variable {tn : TreeNode} {cfg : Settings} {nec cur s : State} {q : Queues} {rest : List State}

/-- What holds at the head of the loop: `nec` is the state it began with. -/
structure Queued (cfg : Settings) (tn : TreeNode) (nec : State) (q : Queues) : Prop where
  proper : ∀ s ∈ q.openQueue ++ q.closedQueue, Proper tn s
  admissible : ∀ s ∈ q.openQueue ++ q.closedQueue, Admissible tn s.opened
  sorted : q.openQueue.Pairwise fun a b => a.key tn < b.key tn
  times : ((q.openQueue ++ q.closedQueue).map State.generationTime).Nodup
  created : ∀ s ∈ q.openQueue ++ q.closedQueue, s.generationTime ≤ q.idd
  swept : Swept nec.opened (Grows tn) (fragmentRank tn) (q.closedQueue.map State.opened) (q.openQueue.map State.opened)
  necessary : nec ∈ q.openQueue ++ q.closedQueue
  small : ∀ s ∈ q.closedQueue, (s.nbExpansions : Int) ≤ cfg.maxRuleExpansions

theorem rank_le_of_key_lt {a b : State} (h : a.key tn < b.key tn) : fragmentRank tn a.opened ≤ fragmentRank tn b.opened := by
  rcases Prod.Lex.toLex_lt_toLex.mp h with hlt | ⟨heq, -⟩
  · exact hlt.le
  · exact heq.le

/-- The head of the queue is least. -/
theorem Queued.least (h : Queued cfg tn nec q) (hq : q.openQueue = cur :: rest) :
    ∀ s ∈ q.openQueue, fragmentRank tn cur.opened ≤ fragmentRank tn s.opened := by
  intro s hs
  have hsorted := h.sorted
  rw [hq] at hs hsorted
  rcases mem_cons.mp hs with rfl | hs
  · exact le_rfl
  · exact rank_le_of_key_lt ((pairwise_cons.mp hsorted).1 s hs)

theorem Queued.adding (h : Queued cfg tn nec q) (cur : State) :
    Adding tn cur q.closedQueue q.openQueue [] (q.openQueue, q.idd) :=
  { h with
    proper s hs := h.proper s (mem_append_left _ hs)
    admissible s hs := h.admissible s (mem_append_left _ hs)
    nodup := (nodup_append.mp h.swept.nodup).1
    mem G := by simp
    keeps := List.Subset.refl _ }

theorem Queued.close_perm (hall : cfg.printAll = true) (h : Queued cfg tn nec q) (hq : q.openQueue = cur :: rest)
    (acc : List State × Nat) : (q.close cfg cur acc).closedQueue.Perm (cur :: q.closedQueue) := by
  have hsub : (cur :: q.closedQueue).Sublist (q.openQueue ++ q.closedQueue) := by
    rw [hq]
    exact (sublist_append_right _ _).cons_cons cur
  have hranked : Ranked tn (cur :: q.closedQueue) :=
    ⟨fun s hs => (h.proper s (hsub.subset hs)).toCounted, h.times.sublist (hsub.map _)⟩
  show (insertState (State.isSmaller cfg.printAll) cur q.closedQueue).Perm _
  rw [hall]
  exact insertState_perm hranked

/-- **One turn of the loop.** -/
theorem Queued.step (hcfg : cfg.Plain) (hall : cfg.printAll = true) (h : Queued cfg tn nec q)
    (hq : q.openQueue = cur :: rest) (hsmall : (cur.nbExpansions : Int) ≤ cfg.maxRuleExpansions) :
    Queued cfg tn nec
      (q.close cfg cur (addSuccessorStatesToQueue cfg ⟨[], tn⟩ cur (q.openQueue, q.idd))) := by
  have hcur : cur ∈ q.openQueue := hq ▸ mem_cons_self
  have hproper := h.proper cur (mem_append_left _ hcur)
  have hadm := h.admissible cur (mem_append_left _ hcur)
  have hadd := addSuccessorStates_spec hcfg hall hproper hadm hcur (h.adding cur)
  generalize addSuccessorStatesToQueue cfg ⟨[], tn⟩ cur (q.openQueue, q.idd) = acc at hadd ⊢
  have hin : cur ∈ acc.1 := hadd.keeps hcur
  -- the element that is erased is `cur`
  have herase : acc.1.Perm (cur :: (q.close cfg cur acc).openQueue) ∧
      (q.close cfg cur acc).openQueue.Sublist acc.1 := by
    obtain ⟨a, l1, l2, -, hp, hsplit, hrest⟩ := exists_of_eraseP
      (p := fun s => decide (s.generationTime = cur.generationTime)) hin (decide_eq_true rfl)
    rw [decide_eq_true_eq] at hp
    have htimes := (hadd.times.sublist ((sublist_append_left _ _).map _))
    have ha : a ∈ acc.1 := hsplit ▸ mem_append_right l1 mem_cons_self
    have heq : a = cur := inj_on_of_nodup_map htimes ha hin hp
    have hopen : (q.close cfg cur acc).openQueue = l1 ++ l2 := hrest
    rw [hopen, hsplit, heq]
    exact ⟨perm_middle, (Sublist.refl l1).append (sublist_cons_self cur l2)⟩
  obtain ⟨hopen, hsub⟩ := herase
  have hclosed := h.close_perm hall hq acc
  have hboth : ((q.close cfg cur acc).openQueue ++ (q.close cfg cur acc).closedQueue).Perm (acc.1 ++ q.closedQueue) :=
    ((Perm.refl _).append hclosed).trans (perm_middle.trans (hopen.symm.append_right _))
  have hmem : ∀ s, s ∈ (q.close cfg cur acc).openQueue ++ (q.close cfg cur acc).closedQueue ↔
      s ∈ acc.1 ∨ s ∈ q.closedQueue := fun s => hboth.mem_iff.trans mem_append
  have hopened : ∀ G, G ∈ acc.1.map State.opened ↔ G ∈ q.openQueue.map State.opened ∨ Grows tn cur.opened G := by
    intro G
    rw [hadd.mem, grows_iff hproper.toLaid hadm]
  refine ⟨?_, ?_, hadd.sorted.sublist hsub, ?_, ?_, ?_, ?_, ?_⟩
  · intro s hs
    rcases (hmem s).mp hs with hs | hs
    · exact hadd.proper s hs
    · exact h.proper s (mem_append_right _ hs)
  · intro s hs
    rcases (hmem s).mp hs with hs | hs
    · exact hadd.admissible s hs
    · exact h.admissible s (mem_append_right _ hs)
  · exact (hboth.map _).nodup_iff.mpr hadd.times
  · exact fun s hs => hadd.created s (hboth.mem_iff.mp hs)
  · have hnodup := (hopen.map State.opened).nodup_iff.mp hadd.nodup
    rw [map_cons, nodup_cons] at hnodup
    refine h.swept.visit (mem_map_of_mem hcur) ?_ (fun G hG => hG.rank_lt hadm.toFragment) hnodup.2 ?_
      (hclosed.map State.opened)
    · intro G hG
      obtain ⟨s, hs, rfl⟩ := mem_map.mp hG
      exact h.least hq s hs
    · intro G
      rw [← hopened, (hopen.map State.opened).mem_iff, map_cons, mem_cons]
      constructor
      · intro hG
        exact ⟨fun heq => hnodup.1 (heq ▸ hG), .inr hG⟩
      · rintro ⟨hne, hG | hG⟩
        · exact absurd hG hne
        · exact hG
  · refine (hmem nec).mpr ?_
    rcases mem_append.mp h.necessary with hnec | hnec
    · exact .inl (hadd.keeps hnec)
    · exact .inr hnec
  · intro s hs
    rcases mem_cons.mp (hclosed.mem_iff.mp hs) with rfl | hs
    · exact hsmall
    · exact h.small s hs

/-- There are only so many fragments to close. -/
theorem Queued.length_le (h : Queued cfg tn nec q) : q.closedQueue.length ≤ 2 ^ tn.paths.length := by
  have hnodup := (nodup_append.mp h.swept.nodup).2.1
  have hsub : (q.closedQueue.map State.opened).toFinset ⊆ tn.paths.toFinset.powerset := by
    intro F hF
    obtain ⟨s, hs, rfl⟩ := mem_map.mp (mem_toFinset.mp hF)
    refine Finset.mem_powerset.mpr fun p hp => mem_toFinset.mpr ((tn.mem_paths p).mpr ?_)
    exact (h.admissible s (mem_append_right _ hs)).inside p hp
  have hcard := Finset.card_le_card hsub
  rw [toFinset_card_of_nodup hnodup, length_map, Finset.card_powerset] at hcard
  exact hcard.trans (Nat.pow_le_pow_right Nat.two_pos (toFinset_card_le _))

/-- Where the loop ends. -/
def Ended (cfg : Settings) (q : Queues) : Prop :=
  ∀ cur rest, q.openQueue = cur :: rest →
    cfg.maxToExtract ≤ (q.curSize : Int) ∨ cfg.maxRuleExpansions < (cur.nbExpansions : Int)

/-- **All turns**: the loop ends. -/
theorem searchLoop_spec (hcfg : cfg.Plain) (hall : cfg.printAll = true) : ∀ (fuel : Nat) {q : Queues},
    Queued cfg tn nec q → 2 ^ tn.paths.length < fuel + q.closedQueue.length →
    ∃ q', searchLoop cfg ⟨[], tn⟩ fuel q = some q' ∧ Queued cfg tn nec q' ∧ Ended cfg q'
  | 0, q, h, hfuel => by
    have hle := h.length_le
    omega
  | fuel + 1, q, h, hfuel => by
    cases hq : q.openQueue with
    | nil =>
      refine ⟨q, by simp only [searchLoop, hq], h, fun cur rest heq => ?_⟩
      rw [hq] at heq
      cases heq
    | cons cur rest =>
      by_cases hstop : cfg.maxToExtract ≤ (q.curSize : Int) ∨ cfg.maxRuleExpansions < (cur.nbExpansions : Int)
      · refine ⟨q, by simp only [searchLoop, hq, if_pos hstop], h, fun cur' rest' heq => ?_⟩
        rw [hq] at heq
        cases heq
        exact hstop
      · have hsmall := Int.not_lt.mp (not_or.mp hstop).2
        have hstep := h.step hcfg hall hq hsmall
        have hlength := (h.close_perm hall hq
          (addSuccessorStatesToQueue cfg ⟨[], tn⟩ cur (q.openQueue, q.idd))).length_eq
        rw [length_cons] at hlength
        obtain ⟨q', hrun, hq', hend⟩ := searchLoop_spec hcfg hall fuel hstep (by omega)
        refine ⟨q', ?_, hq', hend⟩
        simp only [searchLoop, hq, if_neg hstop]
        rw [← hq]
        exact hrun

/-! ## The left-hand sides -/

theorem new_proper (tn : TreeNode) (idd : Nat) : Proper tn (State.new (RuleNode.new ⟨[], tn⟩ 0) idd) ∧
    (State.new (RuleNode.new ⟨[], tn⟩ 0) idd).opened = ∅ := by
  refine ⟨⟨⟨?_, ?_, rfl, ?_, ?_, ?_, ?_⟩, ⟨rfl, rfl, rfl, rfl⟩⟩, rfl⟩
  · intro n hn
    cases mem_singleton.mp hn
    rfl
  · exact nodup_singleton _
  · intro i n hi hne
    cases mem_singleton.mp (mem_of_getElem? hi)
    exact absurd rfl hne
  · intro i n hi j hj
    cases mem_singleton.mp (mem_of_getElem? hi)
    cases hj
  · intro n hn p k hp
    cases mem_singleton.mp hn
    exact absurd hp.symm (append_ne_nil_of_right_ne_nil p (cons_ne_nil k []))
  · intro n hn hlex
    cases mem_singleton.mp hn
    cases hlex

theorem smallest_spec (hcfg : cfg.Plain) (tn : TreeNode) (idd : Nat) :
    Proper tn (getSmallestAdmissibleState cfg tn idd) ∧
      IsLeast {F | Admissible tn F} (getSmallestAdmissibleState cfg tn idd).opened ∧
      (getSmallestAdmissibleState cfg tn idd).generationTime = idd + 1 := by
  obtain ⟨hnew, hempty⟩ := new_proper tn idd
  obtain ⟨hproper, hleast, htime⟩ := expandState_spec hcfg hnew
  have habove : Above tn ∅ = {F | Admissible tn F} := by
    simp [Above]
  rw [hempty, habove] at hleast
  exact ⟨⟨hproper.toLaid.congr rfl, ⟨hproper.exp, hproper.lex, hproper.ignored, hproper.ors⟩⟩, hleast, htime⟩

theorem start_queued (hcfg : cfg.Plain) (tn : TreeNode) (idd : Nat) :
    Queued cfg tn (getSmallestAdmissibleState cfg tn idd) (startQueues cfg tn idd) := by
  obtain ⟨hproper, hleast, htime⟩ := smallest_spec hcfg tn idd
  generalize hnec : getSmallestAdmissibleState cfg tn idd = nec at *
  have hstart : startQueues cfg tn idd = ⟨[nec], [], idd + 1⟩ := by
    unfold startQueues
    rw [hnec]
    rfl
  rw [hstart]
  have hall : ∀ {P : State → Prop}, P nec → ∀ s ∈ [nec] ++ ([] : List State), P s := by
    intro P hP s hs
    cases mem_singleton.mp hs
    exact hP
  exact {
    proper := hall hproper
    admissible := hall hleast.1
    sorted := pairwise_singleton _ _
    times := nodup_singleton _
    created := hall htime.le
    swept := Swept.init
    necessary := mem_cons_self
    small := fun s hs => absurd hs not_mem_nil }

/-- The closed queue in the end. -/
theorem moveMinimal_perm (hall : cfg.printAll = true) (h : Queued cfg tn nec q) :
    (moveMinimal cfg nec q).Perm q.closedQueue ∧ nec ∈ q.closedQueue ∨
      (moveMinimal cfg nec q).Perm (nec :: q.closedQueue) ∧ nec ∈ q.openQueue := by
  have hskip : ∀ (l closed : List State), (∀ s ∈ l, s.generationTime ≠ nec.generationTime) →
      l.foldl (fun closed s => if s.generationTime = nec.generationTime then
        insertState (State.isSmaller cfg.printAll) s closed else closed) closed = closed := by
    intro l
    induction l with
    | nil => exact fun _ _ => rfl
    | cons s l ih =>
      intro closed hl
      rw [foldl_cons, if_neg (hl s mem_cons_self)]
      exact ih closed fun s hs => hl s (mem_cons_of_mem _ hs)
  obtain ⟨hopenTimes, -, hdisjoint⟩ := nodup_append.mp (map_append ▸ h.times)
  rcases mem_append.mp h.necessary with hnec | hnec
  · -- it still waits, and is the only one with its generation time
    refine .inr ⟨?_, hnec⟩
    obtain ⟨l1, l2, hsplit⟩ := append_of_mem hnec
    rw [hsplit, map_append, map_cons, nodup_append, nodup_cons] at hopenTimes
    obtain ⟨-, ⟨hafter, -⟩, hbefore⟩ := hopenTimes
    have hsub : (nec :: q.closedQueue).Sublist (q.openQueue ++ q.closedQueue) := by
      rw [hsplit, append_assoc]
      exact ((sublist_append_right l2 _).cons_cons nec).trans (sublist_append_right l1 _)
    have hranked : Ranked tn (nec :: q.closedQueue) :=
      ⟨fun s hs => (h.proper s (hsub.subset hs)).toCounted, h.times.sublist (hsub.map _)⟩
    unfold moveMinimal
    rw [hsplit, foldl_append, foldl_cons, if_pos rfl,
      hskip l1 _ fun s hs => hbefore _ (mem_map_of_mem hs) _ mem_cons_self,
      hskip l2 _ fun s hs heq => hafter (heq ▸ mem_map_of_mem hs), hall]
    exact insertState_perm hranked
  · refine .inl ⟨?_, hnec⟩
    unfold moveMinimal
    rw [hskip]
    exact fun s hs => hdisjoint _ (mem_map_of_mem hs) _ (mem_map_of_mem hnec)

/-- What has been closed when the limit on expansions ends the search. -/
theorem closed_iff (h : Queued cfg tn nec q) (hleast : IsLeast {F | Admissible tn F} nec.opened)
    (hend : ∀ cur rest, q.openQueue = cur :: rest → cfg.maxRuleExpansions < (cur.nbExpansions : Int))
    (F : Finset (List Nat)) : F ∈ q.closedQueue.map State.opened ↔
      Admissible tn F ∧ (expansions tn F : Int) ≤ cfg.maxRuleExpansions := by
  constructor
  · intro hF
    obtain ⟨s, hs, rfl⟩ := mem_map.mp hF
    refine ⟨h.admissible s (mem_append_right _ hs), ?_⟩
    rw [← (h.proper s (mem_append_right _ hs)).exp]
    exact h.small s hs
  · rintro ⟨hadm, hsmall⟩
    refine h.swept.done (fun G => (expansions tn G : Int) ≤ cfg.maxRuleExpansions) ?_ ?_
      (hadm.reached hleast.1 (hleast.2 hadm)) hsmall
    · intro G hG hGsmall
      obtain ⟨s, hs, rfl⟩ := mem_map.mp hG
      cases hq : q.openQueue with
      | nil =>
        rw [hq] at hs
        cases hs
      | cons cur rest =>
        -- the head of the queue is too large, and all others are no smaller
        have hcur := h.proper cur (mem_append_left _ (hq ▸ mem_cons_self))
        have hle := h.least hq s hs
        have hexp : expansions tn cur.opened ≤ expansions tn s.opened := by
          rcases Prod.Lex.toLex_le_toLex.mp hle with hlt | ⟨heq, -⟩
          · exact hlt.le
          · exact heq.le
        have hbig := hend cur rest hq
        rw [hcur.exp] at hbig
        omega
    · intro G H hgrows hH
      have hexp := expansions_mono tn hgrows.ssubset.subset
      omega

/-- **The left-hand sides**: where `_max_to_extract` does not end the search, the closed queue holds the smallest
admissible fragment and all admissible fragments within the limit on expansions, each once. -/
theorem extractStates_exact (hcfg : cfg.Plain) (hall : cfg.printAll = true) (tn : TreeNode) (idd : Nat)
    (hmax : ∀ fuel q, searchLoop cfg ⟨[], tn⟩ fuel (startQueues cfg tn idd) = some q →
      q.openQueue = [] ∨ (q.curSize : Int) < cfg.maxToExtract) :
    ∃ least, IsLeast {F | Admissible tn F} least ∧ ∃ fuel0, ∀ fuel ≥ fuel0, ∃ closed,
      extractStates cfg tn fuel idd = some closed ∧ (∀ s ∈ closed, Laid tn s) ∧ (closed.map State.opened).Nodup ∧
      ∀ F, F ∈ closed.map State.opened ↔
        Admissible tn F ∧ (F = least ∨ (expansions tn F : Int) ≤ cfg.maxRuleExpansions) := by
  obtain ⟨-, hleast, -⟩ := smallest_spec hcfg tn idd
  refine ⟨_, hleast, 2 ^ tn.paths.length + 1, fun fuel hfuel => ?_⟩
  obtain ⟨q, hrun, hq, hend⟩ := searchLoop_spec hcfg hall fuel (start_queued hcfg tn idd)
    (hfuel.trans_lt' (Nat.lt_succ_self _) |>.trans_le (Nat.le_add_right _ _))
  have hlimit : ∀ cur rest, q.openQueue = cur :: rest → cfg.maxRuleExpansions < (cur.nbExpansions : Int) := by
    intro cur rest heq
    rcases hend cur rest heq with hstop | hstop
    · rcases hmax fuel q hrun with hnil | hlt
      · rw [hnil] at heq
        cases heq
      · omega
    · exact hstop
  have hclosed := closed_iff hq hleast hlimit
  have hnodup := hq.swept.nodup
  rw [← map_append] at hnodup
  refine ⟨_, by rw [extractStates, hrun]; rfl, ?_⟩
  rcases moveMinimal_perm hall hq with ⟨hperm, hnec⟩ | ⟨hperm, hnec⟩
  · refine ⟨?_, ?_, fun F => ?_⟩
    · exact fun s hs => (hq.proper s (mem_append_right _ (hperm.mem_iff.mp hs))).toLaid
    · exact (hperm.map _).nodup_iff.mpr (hnodup.sublist ((sublist_append_right _ _).map _))
    · rw [(hperm.map _).mem_iff, hclosed]
      refine and_congr_right fun hF => ⟨.inr, ?_⟩
      rintro (rfl | hsmall)
      · exact ((hclosed _).mp (mem_map_of_mem hnec)).2
      · exact hsmall
  · refine ⟨?_, ?_, fun F => ?_⟩
    · intro s hs
      rcases mem_cons.mp (hperm.mem_iff.mp hs) with rfl | hs
      · exact (hq.proper _ (mem_append_left _ hnec)).toLaid
      · exact (hq.proper s (mem_append_right _ hs)).toLaid
    · refine (hperm.map _).nodup_iff.mpr (hnodup.sublist (Sublist.map _ ?_))
      exact (singleton_sublist.mpr hnec).append (Sublist.refl _)
    · rw [(hperm.map _).mem_iff, map_cons, mem_cons, hclosed]
      constructor
      · rintro (rfl | ⟨hF, hsmall⟩)
        · exact ⟨hleast.1, .inl rfl⟩
        · exact ⟨hF, .inr hsmall⟩
      · rintro ⟨hF, rfl | hsmall⟩
        · exact .inl rfl
        · exact .inr ⟨hF, hsmall⟩

theorem searchLoop_mono {root : NodeRef} : ∀ {fuel : Nat} {q q' : Queues}, searchLoop cfg root fuel q = some q' →
    ∀ k, searchLoop cfg root (fuel + k) q = some q'
  | 0, _, _, h, _ => by cases h
  | fuel + 1, q, q', h, k => by
    rw [Nat.add_right_comm]
    simp only [searchLoop] at h ⊢
    cases hq : q.openQueue with
    | nil => simpa only [hq] using h
    | cons cur rest =>
      simp only [hq] at h ⊢
      split at h
      · rename_i hstop
        rw [if_pos hstop]
        exact h
      · rename_i hstop
        rw [if_neg hstop]
        exact searchLoop_mono h k

/-- `NP(DT NN)`, with two preterminals that may be variables. -/
def nounPhrase : TreeNode :=
  .node ⟨"NP", "", (0, 1), [(0, 1)], [], true, true⟩
    [.node ⟨"DT", "the", (0, 0), [(0, 0)], [(1, 1)], true, true⟩ [],
      .node ⟨"NN", "cat", (1, 1), [(1, 1)], [(0, 0)], true, true⟩ []]

def plainSettings : Settings := ⟨true, false, fun _ => none, 1, 100⟩

/-- The four left-hand sides `NP(x0:DT x1:NN)`, `NP(DT("the") x0:NN)`, `NP(x0:DT NN("cat"))` and
`NP(DT("the") NN("cat"))`. -/
example : ((extractStates plainSettings nounPhrase 10 0).map fun closed => closed.map State.opened) =
    some [{[]}, {[], [0]}, {[], [1]}, {[], [0], [1]}] := by decide

theorem extractStates_exact_nounPhrase : ∃ least, IsLeast {F | Admissible nounPhrase F} least ∧ ∃ fuel0,
    ∀ fuel ≥ fuel0, ∃ closed, extractStates plainSettings nounPhrase fuel 0 = some closed ∧
      (∀ s ∈ closed, Laid nounPhrase s) ∧ (closed.map State.opened).Nodup ∧
      ∀ F, F ∈ closed.map State.opened ↔ Admissible nounPhrase F ∧ (F = least ∨ (expansions nounPhrase F : Int) ≤ 1) := by
  refine extractStates_exact ⟨rfl, fun _ => rfl⟩ rfl nounPhrase 0 fun fuel q hrun => .inr ?_
  have hsize : ((searchLoop plainSettings ⟨[], nounPhrase⟩ 10 (startQueues plainSettings nounPhrase 0)).map
      fun q => decide ((q.curSize : Int) < 100)) = some true := by decide
  obtain ⟨q', hrun', hlt⟩ := Option.map_eq_some_iff.mp hsize
  have heq := searchLoop_mono hrun 10
  rw [Nat.add_comm, searchLoop_mono hrun' fuel] at heq
  cases heq
  exact of_decide_eq_true hlt

end Loop

end Sbmt.Ghkm
