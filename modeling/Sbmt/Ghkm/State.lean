import Sbmt.Ghkm.Fragment

/-!
# States of rule extraction

| here | there |
| --- | --- |
| `NodeRef` | `TreeNode*` (`xrs-extract/c++-src/TreeNode.h`): the path tells one node from another |
| `RuleNode` | `RuleNode` (`RuleNode.h:27-133`), a node of a left-hand side with the indices of its successors |
| `State` | `State` (`State.h:36-333`), `State(RuleNode*)` (`:115-128`), the copy constructor (`State.C:30-49`) |

What a state keeps for the printing of rules only (categories, words, variable numbers, `_nb_nodes`,
`_nb_lex_zero`) is left out. The static counter `idd` is passed along. The recursion of `isDuplicateState` is bounded by the
number of its nodes, the loop of `expandStateToAdmissibleFrontier` by the size of the tree: neither bound is
met (`isDuplicateState_iff`, `expandState_spec`).
-/

namespace Sbmt.Ghkm

open List

/-! ## Data -/

structure NodeRef where
  path : List Nat
  node : TreeNode

def NodeRef.subtrees (r : NodeRef) : List NodeRef := r.node.subtrees.mapIdx fun i t => ⟨r.path ++ [i], t⟩

structure RuleNode where
  treenodeRef : NodeRef
  lexicalized : Bool
  suc : List Nat
  pos : Nat

namespace RuleNode

/-- `RuleNode(n, pos)` -/
def new (n : NodeRef) (pos : Nat) : RuleNode := ⟨n, false, [], pos⟩

def isInternal (n : RuleNode) : Bool := !n.suc.isEmpty

@[reducible] def path (n : RuleNode) : List Nat := n.treenodeRef.path

@[reducible] def node (n : RuleNode) : TreeNode := n.treenodeRef.node

/-- No variable. -/
def opened (n : RuleNode) : Bool := n.isInternal || n.lexicalized

end RuleNode

structure State where
  lhs : List RuleNode
  nbExpansions : Nat
  nbIgnoredExpansions : Nat
  nbOrExpansions : Nat
  nbLex : Nat
  isMinimal : Bool
  generationTime : Nat

/-- The static members that the search reads, and its two limits. -/
structure Settings where
  printAll : Bool
  ignoreAuxExpansion : Bool
  /-- `none` where `get_projected_size()` is negative. -/
  projectedSize : TreeNode → Option Nat
  maxRuleExpansions : Int
  maxToExtract : Int

/-- The category ends with `-BAR`. -/
def isAuxNode (cat : String) : Bool := decide (4 < cat.length) && cat.endsWith "-BAR"

namespace State

/-- `State(RuleNode*)` -/
def new (r : RuleNode) (idd : Nat) : State := ⟨[r], 0, 0, 0, 0, false, idd + 1⟩

/-- The copy constructor: a copy has its own generation time. -/
def copy (s : State) (idd : Nat) : State := { s with generationTime := idd + 1 }

/-- By the expansions, the lexicalized items, the ignored and the OR expansions; "break the tie using the generation
time". -/
def isSmaller (printAll : Bool) (s₁ s₂ : State) : Bool :=
  if printAll then
    if s₁.nbExpansions < s₂.nbExpansions then true
    else if s₁.nbExpansions = s₂.nbExpansions then
      if s₁.nbLex < s₂.nbLex then true
      else if s₁.nbLex = s₂.nbLex then
        if s₁.nbIgnoredExpansions < s₂.nbIgnoredExpansions then true
        else if s₁.nbIgnoredExpansions = s₂.nbIgnoredExpansions then
          if s₁.nbOrExpansions < s₂.nbOrExpansions then true
          else if s₁.nbOrExpansions = s₂.nbOrExpansions then decide (s₁.generationTime < s₂.generationTime)
          else false
        else false
      else false
    else false
  else decide (s₁.nbExpansions + s₁.nbLex ≤ s₂.nbExpansions + s₂.nbLex)

/-- `_is_duplicate_state`, from the nodes with the indices `i` and `j`. -/
def isDuplicateFrom (s₁ s₂ : State) : Nat → Nat → Nat → Bool
  | 0, _, _ => false
  | fuel + 1, i, j =>
    match s₁.lhs[i]?, s₂.lhs[j]? with
    | some n₁, some n₂ =>
      decide (n₁.path = n₂.path) && decide (n₁.lexicalized = n₂.lexicalized) && decide (n₁.suc.length = n₂.suc.length) &&
        (n₁.suc.zip n₂.suc).all fun p => isDuplicateFrom s₁ s₂ fuel p.1 p.2
    | _, _ => false

def isDuplicateState (s₁ s₂ : State) : Bool :=
  decide (s₁.lhs.length = s₂.lhs.length) && decide (s₁.nbExpansions = s₂.nbExpansions) &&
    decide (s₁.nbOrExpansions = s₂.nbOrExpansions) && isDuplicateFrom s₁ s₂ s₁.lhs.length 0 0

/-- One rule node for each subtree, and their indices for the node `cur`. -/
def addSubtrees (s : State) (cur : Nat) (r : NodeRef) : State :=
  { s with lhs :=
      (s.lhs.modify cur fun n => { n with suc := n.suc ++ range' s.lhs.length r.subtrees.length }) ++
        r.subtrees.mapIdx fun k u => RuleNode.new u (s.lhs.length + k) }

/-- What an expansion counts for. -/
def countExpansion (cfg : Settings) (s : State) (t : TreeNode) : State :=
  if !t.isInternal then s
  else if cfg.ignoreAuxExpansion && isAuxNode t.data.cat then
    if s.nbExpansions = 0 then { s with nbExpansions := s.nbExpansions + 1 }
    else { s with nbIgnoredExpansions := s.nbIgnoredExpansions + 1 }
  else
    match cfg.projectedSize t with
    | some k => { s with nbExpansions := s.nbExpansions + k }
    | none => { s with nbExpansions := s.nbExpansions + 1 }

def expandSuccessors (cfg : Settings) (s : State) (cur : Nat) : State :=
  match s.lhs[cur]? with
  | none => s
  | some n =>
    (if n.suc = [] then s.addSubtrees cur n.treenodeRef else s).countExpansion cfg n.node

/-- `set_lexicalized(true)` and `inc_nb_lexicalized()` -/
def lexicalize (s : State) (cur : Nat) : State :=
  { s with lhs := s.lhs.modify cur fun n => { n with lexicalized := true }, nbLex := s.nbLex + 1 }

def findNoderef (s : State) (n : NodeRef) : Option Nat := s.lhs.findIdx? fun r => decide (r.path = n.path)

end State

/-! ## The next admissible frontier -/

/-- The body of the inner loop, for the node with index `i`: "expand the node only if it is necessary". -/
def expandNode (cfg : Settings) (root : NodeRef) (s : State) (i : Nat) : State × Bool :=
  match s.lhs[i]? with
  | none => (s, false)
  | some n =>
    if n.isInternal then (s, false)
    else if n.node.data.frontierNode && decide (n.path ≠ root.path) then (s, false)
    else if n.node.isInternal then (s.expandSuccessors cfg i, true)
    else if n.lexicalized then (s, false)
    else (s.lexicalize i, true)

/-- The inner loop over the indices there were when it began. -/
def expandNodes (cfg : Settings) (root : NodeRef) : List Nat → State → State × Bool
  | [], s => (s, false)
  | i :: is, s =>
    let first := expandNode cfg root s i
    let rest := expandNodes cfg root is first.1
    (rest.1, first.2 || rest.2)

/-- The outer loop, as long as the frontier is modified. -/
def expandLoop (cfg : Settings) (root : NodeRef) : Nat → State → State
  | 0, s => s
  | fuel + 1, s =>
    let pass := expandNodes cfg root (range s.lhs.length) s
    if pass.2 then expandLoop cfg root fuel pass.1 else pass.1

def expandStateToAdmissibleFrontier (cfg : Settings) (root : NodeRef) (s : State) : State :=
  expandLoop cfg root (root.node.paths.length + 1) s

/-! ## What a state keeps -/

variable {tn : TreeNode} {cfg : Settings} {s s' s₁ s₂ : State} {i j k : Nat} {n m : RuleNode} {u : NodeRef}

/-- The paths to the nodes that are expanded or lexicalized. -/
def State.opened (s : State) : Finset (List Nat) := ((s.lhs.filter RuleNode.opened).map RuleNode.path).toFinset

/-- The left-hand side is laid out as a fragment rooted at `tn`: each node once, below its parent, and the successors of
an expanded node are its subtrees in order. -/
structure Laid (tn : TreeNode) (s : State) : Prop where
  refs : ∀ n ∈ s.lhs, tn.get? n.path = some n.node
  nodup : (s.lhs.map RuleNode.path).Nodup
  first : s.lhs[0]?.map RuleNode.path = some []
  sucs : ∀ (i : Nat) n, s.lhs[i]? = some n → n.suc ≠ [] →
    n.suc.map (fun j => s.lhs[j]?.map RuleNode.path) = n.treenodeRef.subtrees.map fun u => some u.path
  later : ∀ (i : Nat) n, s.lhs[i]? = some n → ∀ j ∈ n.suc, i < j
  parents : ∀ n ∈ s.lhs, ∀ p k, n.path = p ++ [k] → ∃ m ∈ s.lhs, m.path = p ∧ m.suc ≠ []
  leaves : ∀ n ∈ s.lhs, n.lexicalized = true → n.node.isInternal = false

/-- The counters, where no expansion is ignored or counted for more than one. -/
structure Counted (tn : TreeNode) (s : State) : Prop where
  exp : s.nbExpansions = expansions tn s.opened
  lex : s.nbLex = lexicalized tn s.opened
  ignored : s.nbIgnoredExpansions = 0
  ors : s.nbOrExpansions = 0

theorem State.mem_opened {p : List Nat} : p ∈ s.opened ↔ ∃ n ∈ s.lhs, n.opened = true ∧ n.path = p := by
  simp only [State.opened, mem_toFinset, mem_map, mem_filter, and_assoc]

@[simp] theorem NodeRef.length_subtrees (r : NodeRef) : r.subtrees.length = r.node.subtrees.length := by
  simp [NodeRef.subtrees]

theorem NodeRef.getElem?_subtrees {r : NodeRef} : r.subtrees[k]? = some u ↔
    r.node.subtrees[k]? = some u.node ∧ u.path = r.path ++ [k] := by
  unfold NodeRef.subtrees
  rw [getElem?_mapIdx, Option.map_eq_some_iff]
  constructor
  · rintro ⟨t, ht, rfl⟩
    exact ⟨ht, rfl⟩
  · rintro ⟨ht, hp⟩
    refine ⟨u.node, ht, ?_⟩
    cases u
    cases hp
    rfl

theorem TreeNode.isInternal_iff {t : TreeNode} : t.isInternal = true ↔ t.subtrees ≠ [] := by
  simp [TreeNode.isInternal]

theorem RuleNode.isInternal_iff : n.isInternal = true ↔ n.suc ≠ [] := by
  simp [RuleNode.isInternal]

theorem RuleNode.opened_iff : n.opened = true ↔ n.suc ≠ [] ∨ n.lexicalized = true := by
  simp [RuleNode.opened, RuleNode.isInternal]

namespace Laid

variable (h : Laid tn s)
include h

theorem eq_of_path (hn : n ∈ s.lhs) (hm : m ∈ s.lhs) (hp : n.path = m.path) : n = m :=
  inj_on_of_nodup_map h.nodup hn hm hp

theorem index_eq (hi : s.lhs[i]? = some n) (hj : s.lhs[j]? = some m) (hp : n.path = m.path) : i = j := by
  have hi' : (s.lhs.map RuleNode.path)[i]? = some n.path := by rw [getElem?_map, hi]; rfl
  have hj' : (s.lhs.map RuleNode.path)[j]? = some n.path := by rw [getElem?_map, hj, hp]; rfl
  exact (getElem?_inj (List.getElem?_eq_some_iff.mp hi').1 h.nodup).mp (hi'.trans hj'.symm)

theorem opened_iff (hn : n ∈ s.lhs) : n.path ∈ s.opened ↔ n.opened = true := by
  rw [State.mem_opened]
  constructor
  · rintro ⟨m, hm, ho, hp⟩
    rw [← h.eq_of_path hm hn hp]
    exact ho
  · exact fun ho => ⟨n, hn, ho, rfl⟩

theorem fragment : Fragment tn s.opened where
  inside p hp := by
    obtain ⟨n, hn, -, rfl⟩ := State.mem_opened.mp hp
    exact ⟨n.node, h.refs n hn⟩
  connected p k hp := by
    obtain ⟨n, hn, -, hpath⟩ := State.mem_opened.mp hp
    obtain ⟨m, hm, rfl, hsuc⟩ := h.parents n hn p k hpath
    exact (h.opened_iff hm).mpr (RuleNode.opened_iff.mpr (.inl hsuc))

/-- The child `k` of an expanded node is its successor `k`. -/
theorem suc_getElem? (hi : s.lhs[i]? = some n) (hsuc : n.suc ≠ []) :
    (∃ t, tn.get? (n.path ++ [k]) = some t) ↔ ∃ j m, n.suc[k]? = some j ∧ s.lhs[j]? = some m ∧ m.path = n.path ++ [k] := by
  have hget : tn.get? (n.path ++ [k]) = n.node.subtrees[k]? := by
    rw [TreeNode.get?_concat, h.refs n (mem_of_getElem? hi)]
    rfl
  have hk := congrArg (fun l => l[k]?) (h.sucs i n hi hsuc)
  simp only [getElem?_map] at hk
  rw [hget]
  constructor
  · rintro ⟨t, ht⟩
    have hu : n.treenodeRef.subtrees[k]? = some ⟨n.path ++ [k], t⟩ := NodeRef.getElem?_subtrees.mpr ⟨ht, rfl⟩
    rw [hu] at hk
    obtain ⟨j, hj, hm⟩ := Option.map_eq_some_iff.mp hk
    obtain ⟨m, hm, hp⟩ := Option.map_eq_some_iff.mp hm
    exact ⟨j, m, hj, hm, hp⟩
  · rintro ⟨j, m, hj, -, -⟩
    rw [hj] at hk
    obtain ⟨u, hu, -⟩ := Option.map_eq_some_iff.mp hk.symm
    exact ⟨u.node, (NodeRef.getElem?_subtrees.mp hu).1⟩

/-- The nodes of the left-hand side: `tn`, and the subtrees of the expanded nodes. -/
theorem mem_paths {p : List Nat} : p ∈ s.lhs.map RuleNode.path ↔
    p = [] ∨ ∃ q k t, p = q ++ [k] ∧ q ∈ s.opened ∧ tn.get? p = some t := by
  constructor
  · intro hp
    obtain ⟨n, hn, rfl⟩ := mem_map.mp hp
    rcases eq_nil_or_concat n.path with heq | ⟨q, k, heq⟩
    · exact .inl heq
    · rw [concat_eq_append] at heq
      obtain ⟨m, hm, rfl, hsuc⟩ := h.parents n hn q k heq
      exact .inr ⟨m.path, k, n.node, heq, (h.opened_iff hm).mpr (RuleNode.opened_iff.mpr (.inl hsuc)), h.refs n hn⟩
  · rintro (rfl | ⟨q, k, t, rfl, hq, ht⟩)
    · obtain ⟨n, hn, hp⟩ := Option.map_eq_some_iff.mp h.first
      exact mem_map.mpr ⟨n, mem_of_getElem? hn, hp⟩
    · obtain ⟨m, hm, ho, rfl⟩ := State.mem_opened.mp hq
      obtain ⟨i, hi⟩ := mem_iff_getElem?.mp hm
      have hsuc : m.suc ≠ [] := by
        rcases RuleNode.opened_iff.mp ho with hsuc | hlex
        · exact hsuc
        -- a lexicalized node has no subtrees
        · have hget := TreeNode.get?_concat tn m.path k
          rw [ht, h.refs m hm] at hget
          have hleaf := h.leaves m hm hlex
          rw [Bool.eq_false_iff, Ne, TreeNode.isInternal_iff, not_not] at hleaf
          simp [hleaf] at hget
      obtain ⟨j, c, -, hc, hp⟩ := (h.suc_getElem? hi hsuc).mp ⟨t, ht⟩
      exact mem_map.mpr ⟨c, mem_of_getElem? hc, hp⟩

end Laid

/-! ## Opening one node -/

section Opening

theorem getElem?_modify_eq_some {α : Type} {l : List α} {f : α → α} {y : α} :
    (l.modify i f)[j]? = some y ↔ ∃ x, l[j]? = some x ∧ y = if i = j then f x else x := by
  rw [getElem?_modify, Option.map_eq_map, Option.map_eq_some_iff]
  exact exists_congr fun x => and_congr_right fun _ => eq_comm

theorem State.getElem?_lexicalize : (s.lexicalize i).lhs[j]? = some m ↔
    ∃ n, s.lhs[j]? = some n ∧ m = if i = j then { n with lexicalized := true } else n := getElem?_modify_eq_some

variable {r : NodeRef}

theorem State.getElem?_addSubtrees : (s.addSubtrees i r).lhs[j]? = some m ↔
    (∃ n, s.lhs[j]? = some n ∧
      m = if i = j then { n with suc := n.suc ++ range' s.lhs.length r.subtrees.length } else n) ∨
    ∃ k u, j = s.lhs.length + k ∧ r.subtrees[k]? = some u ∧ m = RuleNode.new u j := by
  simp only [State.addSubtrees, getElem?_append, List.length_modify]
  split
  case isTrue hlt =>
    rw [getElem?_modify_eq_some]
    refine ⟨.inl, ?_⟩
    rintro (hold | ⟨k, u, hj, -, -⟩)
    · exact hold
    · omega
  case isFalse hge =>
    rw [getElem?_mapIdx, Option.map_eq_some_iff]
    have hle := Nat.le_of_not_lt hge
    constructor
    · rintro ⟨u, hu, rfl⟩
      refine .inr ⟨j - s.lhs.length, u, (Nat.add_sub_cancel' hle).symm, hu, ?_⟩
      rw [Nat.add_sub_cancel' hle]
    · rintro (⟨n, hn, -⟩ | ⟨k, u, rfl, hu, rfl⟩)
      · exact absurd (List.getElem?_eq_some_iff.mp hn).1 hge
      · rw [Nat.add_sub_cancel_left]
        exact ⟨u, hu, rfl⟩

theorem map_path_lexicalize : (s.lexicalize i).lhs.map RuleNode.path = s.lhs.map RuleNode.path := by
  apply ext_getElem?
  intro j
  simp only [State.lexicalize, getElem?_map, getElem?_modify]
  cases s.lhs[j]? with
  | none => rfl
  | some n => by_cases hij : i = j <;> simp [hij]

theorem path?_lexicalize : (s.lexicalize i).lhs[j]?.map RuleNode.path = s.lhs[j]?.map RuleNode.path := by
  rw [← getElem?_map, ← getElem?_map, map_path_lexicalize]

theorem Laid.lexicalize (h : Laid tn s) (hi : s.lhs[i]? = some n) (hleaf : n.node.isInternal = false) :
    Laid tn (s.lexicalize i) := by
  have hmem : ∀ m ∈ (s.lexicalize i).lhs, ∃ n ∈ s.lhs, m.treenodeRef = n.treenodeRef ∧ m.suc = n.suc ∧
      (m.lexicalized = true → n.lexicalized = true ∨ n.node.isInternal = false) := by
    intro m hm
    obtain ⟨j, hj⟩ := mem_iff_getElem?.mp hm
    obtain ⟨n', hn', rfl⟩ := State.getElem?_lexicalize.mp hj
    refine ⟨n', mem_of_getElem? hn', ?_⟩
    by_cases hij : i = j
    · subst hij
      cases hi.symm.trans hn'
      simp [hleaf]
    · simp only [if_neg hij, true_and]
      exact .inl
  have hback : ∀ m ∈ s.lhs, ∃ m' ∈ (s.lexicalize i).lhs, m'.path = m.path ∧ m'.suc = m.suc := by
    intro m hm
    obtain ⟨j, hj⟩ := mem_iff_getElem?.mp hm
    refine ⟨_, mem_of_getElem? (State.getElem?_lexicalize.mpr ⟨m, hj, rfl⟩), ?_⟩
    split <;> exact ⟨rfl, rfl⟩
  have hat : ∀ (j : Nat) m, (s.lexicalize i).lhs[j]? = some m →
      ∃ n, s.lhs[j]? = some n ∧ m.treenodeRef = n.treenodeRef ∧ m.suc = n.suc := by
    intro j m hj
    obtain ⟨n', hn', rfl⟩ := State.getElem?_lexicalize.mp hj
    refine ⟨n', hn', ?_⟩
    split <;> exact ⟨rfl, rfl⟩
  refine ⟨?_, ?_, ?_, ?_, ?_, ?_, ?_⟩
  · intro m hm
    obtain ⟨n', hn', href, -⟩ := hmem m hm
    rw [RuleNode.path, RuleNode.node, href]
    exact h.refs n' hn'
  · rw [map_path_lexicalize]
    exact h.nodup
  · rw [path?_lexicalize]
    exact h.first
  · intro j m hj hsuc
    obtain ⟨n', hn', href, hs⟩ := hat j m hj
    simp only [path?_lexicalize]
    rw [hs, href]
    exact h.sucs j n' hn' (hs ▸ hsuc)
  · intro j m hj
    obtain ⟨n', hn', -, hs⟩ := hat j m hj
    rw [hs]
    exact h.later j n' hn'
  · intro m hm p k hp
    obtain ⟨n', hn', href, -⟩ := hmem m hm
    rw [RuleNode.path, href] at hp
    obtain ⟨par, hpar, hpath, hsuc⟩ := h.parents n' hn' p k hp
    obtain ⟨par', hpar', hpath', hsuc'⟩ := hback par hpar
    exact ⟨par', hpar', hpath'.trans hpath, hsuc' ▸ hsuc⟩
  · intro m hm hlex
    obtain ⟨n', hn', href, -, hlex'⟩ := hmem m hm
    rw [RuleNode.node, href]
    exact (hlex' hlex).elim (h.leaves n' hn') id

theorem opened_lexicalize (hi : s.lhs[i]? = some n) :
    (s.lexicalize i).opened = insert n.path s.opened := by
  ext p
  rw [Finset.mem_insert]
  simp only [State.mem_opened]
  constructor
  · rintro ⟨m, hm, ho, rfl⟩
    obtain ⟨j, hj⟩ := mem_iff_getElem?.mp hm
    obtain ⟨n', hn', rfl⟩ := State.getElem?_lexicalize.mp hj
    by_cases hij : i = j
    · subst hij
      cases hi.symm.trans hn'
      exact .inl (by rw [if_pos rfl])
    · rw [if_neg hij] at ho ⊢
      exact .inr ⟨n', mem_of_getElem? hn', ho, rfl⟩
  · rintro (rfl | ⟨m, hm, ho, rfl⟩)
    · refine ⟨_, mem_of_getElem? (State.getElem?_lexicalize.mpr ⟨n, hi, rfl⟩), ?_, ?_⟩
      · rw [if_pos rfl]
        exact RuleNode.opened_iff.mpr (.inr rfl)
      · rw [if_pos rfl]
    · obtain ⟨j, hj⟩ := mem_iff_getElem?.mp hm
      refine ⟨_, mem_of_getElem? (State.getElem?_lexicalize.mpr ⟨m, hj, rfl⟩), ?_, ?_⟩
      · split
        · exact RuleNode.opened_iff.mpr (.inr rfl)
        · exact ho
      · split <;> rfl

theorem map_path_addSubtrees :
    (s.addSubtrees i r).lhs.map RuleNode.path = s.lhs.map RuleNode.path ++ r.subtrees.map NodeRef.path := by
  unfold State.addSubtrees
  rw [map_append]
  congr 1
  · apply ext_getElem?
    intro j
    simp only [getElem?_map, getElem?_modify]
    cases s.lhs[j]? with
    | none => rfl
    | some n => by_cases hij : i = j <;> simp [hij]
  · apply ext_getElem?
    intro k
    simp only [getElem?_map, getElem?_mapIdx]
    cases r.subtrees[k]? <;> rfl

theorem path?_addSubtrees_of_lt (hj : j < s.lhs.length) :
    (s.addSubtrees i r).lhs[j]?.map RuleNode.path = s.lhs[j]?.map RuleNode.path := by
  rw [← getElem?_map, ← getElem?_map, map_path_addSubtrees, getElem?_append_left (by simpa using hj)]

theorem path?_addSubtrees_add :
    (s.addSubtrees i r).lhs[s.lhs.length + k]?.map RuleNode.path = r.subtrees[k]?.map NodeRef.path := by
  rw [← getElem?_map, map_path_addSubtrees, getElem?_append_right (by simp)]
  simp

theorem Laid.suc_lt (h : Laid tn s) (hj : s.lhs[j]? = some m) (hk : k ∈ m.suc) : k < s.lhs.length := by
  have hmem : s.lhs[k]?.map RuleNode.path ∈ m.suc.map fun j => s.lhs[j]?.map RuleNode.path := mem_map_of_mem hk
  rw [h.sucs j m hj (ne_nil_of_mem hk)] at hmem
  obtain ⟨u, -, hu⟩ := mem_map.mp hmem
  obtain ⟨n, hn, -⟩ := Option.map_eq_some_iff.mp hu.symm
  exact (List.getElem?_eq_some_iff.mp hn).1

theorem Laid.addSubtrees (h : Laid tn s) (hi : s.lhs[i]? = some n) (hsuc : n.suc = []) (hint : n.node.isInternal = true) :
    Laid tn (s.addSubtrees i n.treenodeRef) := by
  have hn : n ∈ s.lhs := mem_of_getElem? hi
  have hlen : n.treenodeRef.subtrees.length ≠ 0 := by
    rw [NodeRef.length_subtrees]
    exact fun h0 => TreeNode.isInternal_iff.mp hint (length_eq_zero_iff.mp h0)
  -- an old node, or one of the subtrees
  have hcases : ∀ (j : Nat) m, (s.addSubtrees i n.treenodeRef).lhs[j]? = some m →
      (i = j ∧ m = { n with suc := range' s.lhs.length n.treenodeRef.subtrees.length }) ∨
        (i ≠ j ∧ s.lhs[j]? = some m) ∨
        ∃ k u, j = s.lhs.length + k ∧ n.treenodeRef.subtrees[k]? = some u ∧ m = RuleNode.new u j := by
    intro j m hj
    rcases State.getElem?_addSubtrees.mp hj with ⟨n', hn', rfl⟩ | hnew
    · by_cases hij : i = j
      · subst hij
        cases hi.symm.trans hn'
        exact .inl ⟨rfl, by rw [if_pos rfl, hsuc, nil_append]⟩
      · exact .inr (.inl ⟨hij, by rw [if_neg hij]; exact hn'⟩)
    · exact .inr (.inr hnew)
  have hback : ∀ m ∈ s.lhs, m.suc ≠ [] → m ∈ (s.addSubtrees i n.treenodeRef).lhs := by
    intro m hm hne
    obtain ⟨j, hj⟩ := mem_iff_getElem?.mp hm
    have hij : i ≠ j := by
      rintro rfl
      cases hi.symm.trans hj
      exact hne hsuc
    exact mem_of_getElem? (State.getElem?_addSubtrees.mpr (.inl ⟨m, hj, by rw [if_neg hij]⟩))
  have hself : { n with suc := range' s.lhs.length n.treenodeRef.subtrees.length } ∈
      (s.addSubtrees i n.treenodeRef).lhs :=
    mem_of_getElem? (State.getElem?_addSubtrees.mpr
      (.inl ⟨n, hi, by rw [if_pos rfl, hsuc, nil_append]⟩))
  refine ⟨?_, ?_, ?_, ?_, ?_, ?_, ?_⟩
  · intro m hm
    obtain ⟨j, hj⟩ := mem_iff_getElem?.mp hm
    rcases hcases j m hj with ⟨-, rfl⟩ | ⟨-, hold⟩ | ⟨k, u, -, hu, rfl⟩
    · exact h.refs n hn
    · exact h.refs m (mem_of_getElem? hold)
    · obtain ⟨hnode, hpath⟩ := NodeRef.getElem?_subtrees.mp hu
      show tn.get? u.path = some u.node
      rw [hpath, TreeNode.get?_concat, h.refs n hn]
      exact hnode
  · rw [map_path_addSubtrees]
    refine nodup_append.mpr ⟨h.nodup, ?_, ?_⟩
    · rw [nodup_iff_getElem?_ne_getElem?]
      intro a b hab hb heq
      rw [getElem?_map, getElem?_map] at heq
      rw [length_map] at hb
      obtain ⟨u, hu⟩ : ∃ u, n.treenodeRef.subtrees[a]? = some u := ⟨_, getElem?_eq_getElem (hab.trans hb)⟩
      obtain ⟨v, hv⟩ : ∃ v, n.treenodeRef.subtrees[b]? = some v := ⟨_, getElem?_eq_getElem hb⟩
      rw [hu, hv, Option.map_some, Option.map_some, Option.some.injEq, (NodeRef.getElem?_subtrees.mp hu).2,
        (NodeRef.getElem?_subtrees.mp hv).2] at heq
      have hlast := append_cancel_left heq
      cases hlast
      exact absurd hab (Nat.lt_irrefl _)
    · -- the child of a node that is not expanded is not there
      rintro p hp q hq rfl
      obtain ⟨m, hm, rfl⟩ := mem_map.mp hp
      obtain ⟨u, hu, hpath⟩ := mem_map.mp hq
      obtain ⟨k, hk⟩ := mem_iff_getElem?.mp hu
      rw [(NodeRef.getElem?_subtrees.mp hk).2] at hpath
      obtain ⟨par, hpar, hparPath, hparSuc⟩ := h.parents m hm _ k hpath.symm
      rw [h.eq_of_path hpar hn hparPath] at hparSuc
      exact hparSuc hsuc
  · have hlt : 0 < s.lhs.length := length_pos_of_mem hn
    rw [path?_addSubtrees_of_lt hlt]
    exact h.first
  · intro j m hj hne
    rcases hcases j m hj with ⟨rfl, rfl⟩ | ⟨-, hold⟩ | ⟨k, u, -, hu, rfl⟩
    · apply ext_getElem?
      intro k
      simp only [getElem?_map]
      by_cases hk : k < n.treenodeRef.subtrees.length
      · rw [getElem?_range' hk, Option.map_some, Nat.one_mul, path?_addSubtrees_add,
          getElem?_eq_getElem hk, Option.map_some, Option.map_some]
      · rw [getElem?_eq_none (Nat.le_of_not_lt hk), getElem?_eq_none (by simpa using Nat.le_of_not_lt hk),
          Option.map_none, Option.map_none]
    · rw [← h.sucs j m hold hne]
      apply map_congr_left
      intro a ha
      exact path?_addSubtrees_of_lt (h.suc_lt hold ha)
    · exact absurd rfl hne
  · intro j m hj a ha
    rcases hcases j m hj with ⟨rfl, rfl⟩ | ⟨-, hold⟩ | ⟨k, u, -, hu, rfl⟩
    · exact (List.getElem?_eq_some_iff.mp hi).1.trans_le (mem_range'_1.mp ha).1
    · exact h.later j m hold a ha
    · exact absurd ha not_mem_nil
  · intro m hm p k hp
    obtain ⟨j, hj⟩ := mem_iff_getElem?.mp hm
    have hold : ∀ m' ∈ s.lhs, m'.path = p ++ [k] →
        ∃ par ∈ (s.addSubtrees i n.treenodeRef).lhs, par.path = p ∧ par.suc ≠ [] := by
      intro m' hm' hp'
      obtain ⟨par, hpar, hpath, hne⟩ := h.parents m' hm' p k hp'
      exact ⟨par, hback par hpar hne, hpath, hne⟩
    rcases hcases j m hj with ⟨-, rfl⟩ | ⟨-, hmold⟩ | ⟨k', u, -, hu, rfl⟩
    · exact hold n hn hp
    · exact hold m (mem_of_getElem? hmold) hp
    · refine ⟨_, hself, ?_, ?_⟩
      · have hpath : n.path ++ [k'] = p ++ [k] := (NodeRef.getElem?_subtrees.mp hu).2.symm.trans hp
        exact (append_inj' hpath rfl).1
      · exact fun h0 => hlen (by simpa using h0)
  · intro m hm hlex
    obtain ⟨j, hj⟩ := mem_iff_getElem?.mp hm
    rcases hcases j m hj with ⟨-, rfl⟩ | ⟨-, hold⟩ | ⟨k, u, -, hu, rfl⟩
    · exact h.leaves n hn hlex
    · exact h.leaves m (mem_of_getElem? hold) hlex
    · exact absurd hlex Bool.false_ne_true

theorem opened_addSubtrees (hi : s.lhs[i]? = some n) (hsuc : n.suc = []) (hint : n.node.isInternal = true) :
    (s.addSubtrees i n.treenodeRef).opened = insert n.path s.opened := by
  have hlen : n.treenodeRef.subtrees.length ≠ 0 := by
    rw [NodeRef.length_subtrees]
    exact fun h0 => TreeNode.isInternal_iff.mp hint (length_eq_zero_iff.mp h0)
  ext p
  rw [Finset.mem_insert]
  simp only [State.mem_opened]
  constructor
  · rintro ⟨m, hm, ho, rfl⟩
    obtain ⟨j, hj⟩ := mem_iff_getElem?.mp hm
    rcases State.getElem?_addSubtrees.mp hj with ⟨n', hn', rfl⟩ | ⟨k, u, -, -, rfl⟩
    · by_cases hij : i = j
      · subst hij
        cases hi.symm.trans hn'
        exact .inl (by rw [if_pos rfl])
      · rw [if_neg hij] at ho ⊢
        exact .inr ⟨n', mem_of_getElem? hn', ho, rfl⟩
    · exact absurd ho Bool.false_ne_true
  · rintro (rfl | ⟨m, hm, ho, rfl⟩)
    · refine ⟨_, mem_of_getElem? (State.getElem?_addSubtrees.mpr (.inl ⟨n, hi, rfl⟩)), ?_, ?_⟩
      · exact RuleNode.opened_iff.mpr (.inl fun h0 => hlen (by simpa [hsuc] using h0))
      · rw [if_pos rfl]
    · obtain ⟨j, hj⟩ := mem_iff_getElem?.mp hm
      refine ⟨_, mem_of_getElem? (State.getElem?_addSubtrees.mpr (.inl ⟨m, hj, rfl⟩)), ?_, ?_⟩
      · split
        · rw [RuleNode.opened_iff] at ho ⊢
          exact ho.imp_left fun hne h0 => hne (append_eq_nil_iff.mp h0).1
        · exact ho
      · split <;> rfl

/-- No auxiliary expansion is ignored and no projected size is set. -/
structure Settings.Plain (cfg : Settings) : Prop where
  ignoreAux : cfg.ignoreAuxExpansion = false
  projected : ∀ t, cfg.projectedSize t = none

structure Proper (tn : TreeNode) (s : State) : Prop extends Laid tn s, Counted tn s

theorem countExpansion_plain (hcfg : cfg.Plain) {t : TreeNode} (ht : t.isInternal = true) :
    s.countExpansion cfg t = { s with nbExpansions := s.nbExpansions + 1 } := by
  unfold State.countExpansion
  simp [ht, hcfg.ignoreAux, hcfg.projected]

theorem not_mem_opened (h : Laid tn s) (hi : s.lhs[i]? = some n) (ho : n.opened = false) : n.path ∉ s.opened := by
  rw [h.opened_iff (mem_of_getElem? hi), ho]
  exact Bool.false_ne_true

/-- **Expanding** a node of the tree. -/
theorem expandSuccessors_spec (hcfg : cfg.Plain) (h : Proper tn s) (hi : s.lhs[i]? = some n) (ho : n.opened = false)
    (hint : n.node.isInternal = true) :
    Proper tn (s.expandSuccessors cfg i) ∧ (s.expandSuccessors cfg i).opened = insert n.path s.opened ∧
      (s.expandSuccessors cfg i).generationTime = s.generationTime := by
  have hsuc : n.suc = [] := by
    by_contra hne
    rw [RuleNode.opened_iff.mpr (.inl hne)] at ho
    cases ho
  have hopen := opened_addSubtrees hi hsuc hint
  have heq : s.expandSuccessors cfg i = { s.addSubtrees i n.treenodeRef with nbExpansions := s.nbExpansions + 1 } := by
    unfold State.expandSuccessors
    simp only [hi, hsuc, if_true]
    exact countExpansion_plain hcfg hint
  have hget := h.refs n (mem_of_getElem? hi)
  have hnew := not_mem_opened h.toLaid hi ho
  have hlaid := h.toLaid.addSubtrees hi hsuc hint
  rw [heq]
  refine ⟨⟨⟨hlaid.refs, hlaid.nodup, hlaid.first, hlaid.sucs, hlaid.later, hlaid.parents, hlaid.leaves⟩, ?_⟩, hopen, rfl⟩
  refine ⟨?_, ?_, h.ignored, h.ors⟩
  · refine Eq.trans ?_ (congrArg (expansions tn) hopen).symm
    rw [expansions_insert hget hnew, if_pos hint, ← h.exp]
  · refine Eq.trans ?_ (congrArg (lexicalized tn) hopen).symm
    rw [lexicalized_insert hget hnew, if_pos hint, ← h.lex]
    rfl

/-- **Lexicalizing** a preterminal. -/
theorem lexicalize_spec (h : Proper tn s) (hi : s.lhs[i]? = some n) (ho : n.opened = false)
    (hleaf : n.node.isInternal = false) :
    Proper tn (s.lexicalize i) ∧ (s.lexicalize i).opened = insert n.path s.opened ∧
      (s.lexicalize i).generationTime = s.generationTime := by
  have hopen := opened_lexicalize hi
  have hget := h.refs n (mem_of_getElem? hi)
  have hnew := not_mem_opened h.toLaid hi ho
  have hne : ¬ n.node.isInternal = true := Bool.eq_false_iff.mp hleaf
  refine ⟨⟨h.toLaid.lexicalize hi hleaf, ⟨?_, ?_, h.ignored, h.ors⟩⟩, hopen, rfl⟩
  · rw [hopen, expansions_insert hget hnew, if_neg hne, ← h.exp]
    rfl
  · rw [hopen, lexicalized_insert hget hnew, if_neg hne, ← h.lex]
    rfl

end Opening

/-! ## Opening what has to be opened -/

section Forcing

/-- `s'` comes from `s` by opening nodes that are opened in every admissible fragment around `s`. -/
structure Proceeds (tn : TreeNode) (s s' : State) : Prop extends Proper tn s' where
  sub : s.opened ⊆ s'.opened
  forced : ∀ G, Admissible tn G → s.opened ⊆ G → s'.opened ⊆ G
  time : s'.generationTime = s.generationTime

theorem Proceeds.refl (h : Proper tn s) : Proceeds tn s s := ⟨h, le_rfl, fun _ _ hG => hG, rfl⟩

theorem Proceeds.trans (h1 : Proceeds tn s s₁) (h2 : Proceeds tn s₁ s₂) : Proceeds tn s s₂ where
  toProper := h2.toProper
  sub := h1.sub.trans h2.sub
  forced G hG hs := h2.forced G hG (h1.forced G hG hs)
  time := h2.time.trans h1.time

/-- The frontier needs no change at the node with index `i`. -/
def Settled (s : State) (i : Nat) : Prop :=
  ∀ n, s.lhs[i]? = some n → n.opened = true ∨ (n.node.data.frontierNode = true ∧ n.path ≠ [])

/-- What is no frontier node, and `tn` itself, is opened in every admissible fragment it belongs to. -/
theorem Laid.mem_of_forced (h : Laid tn s) (hn : n ∈ s.lhs) (hf : n.node.data.frontierNode = false ∨ n.path = [])
    {G : Finset (List Nat)} (hG : Admissible tn G) (hs : s.opened ⊆ G) : n.path ∈ G := by
  rcases eq_nil_or_concat n.path with heq | ⟨p, k, heq⟩
  · rw [heq]
    exact hG.root
  · rw [concat_eq_append] at heq
    obtain ⟨m, hm, hpath, hsuc⟩ := h.parents n hn p k heq
    have hp : p ∈ s.opened := hpath ▸ (h.opened_iff hm).mpr (RuleNode.opened_iff.mpr (.inl hsuc))
    rcases hf with hf | hf
    · rw [heq]
      exact hG.forced p (hs hp) k n.node (heq ▸ h.refs n hn) hf
    · rw [hf] at heq
      exact absurd heq (by simp)

theorem Proceeds.opening (h : Laid tn s) (hn : n ∈ s.lhs) (hf : n.node.data.frontierNode = false ∨ n.path = [])
    (hs' : Proper tn s') (hopen : s'.opened = insert n.path s.opened) (htime : s'.generationTime = s.generationTime) :
    Proceeds tn s s' where
  toProper := hs'
  sub := hopen ▸ Finset.subset_insert _ _
  forced G hG hs := by
    rw [hopen]
    exact Finset.insert_subset (h.mem_of_forced hn hf hG hs) hs
  time := htime

theorem expandNode_settled (h : Laid tn s) (hset : Settled s i) : expandNode cfg ⟨[], tn⟩ s i = (s, false) := by
  cases hi : s.lhs[i]? with
  | none => simp only [expandNode, hi]
  | some n =>
    simp only [expandNode, hi]
    rcases hset n hi with ho | hf
    · rcases RuleNode.opened_iff.mp ho with hsuc | hlex
      · rw [if_pos (RuleNode.isInternal_iff.mpr hsuc)]
      · have hleaf := h.leaves n (mem_of_getElem? hi) hlex
        simp [hlex, hleaf]
    · simp [hf]

/-- A node that is not settled is opened. -/
theorem expandNode_unsettled (hcfg : cfg.Plain) (h : Proper tn s) (hset : ¬ Settled s i) :
    ∃ s', expandNode cfg ⟨[], tn⟩ s i = (s', true) ∧ Proceeds tn s s' ∧ s.opened ⊂ s'.opened := by
  unfold Settled at hset
  push Not at hset
  obtain ⟨n, hi, ho, hf⟩ := hset
  have hn := mem_of_getElem? hi
  have ho : n.opened = false := Bool.eq_false_iff.mpr ho
  have hint : n.isInternal = false := (Bool.or_eq_false_iff.mp ho).1
  have hlex : n.lexicalized = false := (Bool.or_eq_false_iff.mp ho).2
  have hstay : (n.node.data.frontierNode && decide (n.path ≠ [])) = false := by
    rw [Bool.eq_false_iff, Ne, Bool.and_eq_true, decide_eq_true_eq]
    exact fun hboth => hboth.2 (hf hboth.1)
  have hforced : n.node.data.frontierNode = false ∨ n.path = [] := by
    cases hfr : n.node.data.frontierNode with
    | false => exact .inl rfl
    | true => exact .inr (hf hfr)
  have hgrows : ∀ s' : State, s'.opened = insert n.path s.opened → s.opened ⊂ s'.opened := by
    intro s' hopen
    rw [hopen]
    exact Finset.ssubset_insert (not_mem_opened h.toLaid hi ho)
  by_cases htree : n.node.isInternal = true
  · obtain ⟨hproper, hopen, htime⟩ := expandSuccessors_spec hcfg h hi ho htree
    refine ⟨_, ?_, .opening h.toLaid hn hforced hproper hopen htime, hgrows _ hopen⟩
    simp only [expandNode, hi, hint, hstay, if_pos htree, if_neg Bool.false_ne_true]
  · have hleaf := Bool.eq_false_iff.mpr htree
    obtain ⟨hproper, hopen, htime⟩ := lexicalize_spec h hi ho hleaf
    refine ⟨_, ?_, .opening h.toLaid hn hforced hproper hopen htime, hgrows _ hopen⟩
    simp only [expandNode, hi, hint, hstay, hlex, if_neg htree, if_neg Bool.false_ne_true]

/-- One pass: it opens something, or all its nodes are settled. -/
theorem expandNodes_spec (hcfg : cfg.Plain) (is : List Nat) : ∀ {s : State}, Proper tn s →
    Proceeds tn s (expandNodes cfg ⟨[], tn⟩ is s).1 ∧
      ((expandNodes cfg ⟨[], tn⟩ is s).2 = true → s.opened ⊂ (expandNodes cfg ⟨[], tn⟩ is s).1.opened) ∧
      ((expandNodes cfg ⟨[], tn⟩ is s).2 = false →
        (expandNodes cfg ⟨[], tn⟩ is s).1 = s ∧ ∀ i ∈ is, Settled s i) := by
  induction is with
  | nil =>
    intro s h
    refine ⟨.refl h, fun h0 => absurd h0 Bool.false_ne_true, fun _ => ⟨rfl, fun i hi => absurd hi not_mem_nil⟩⟩
  | cons i is ih =>
    intro s h
    by_cases hset : Settled s i
    · obtain ⟨hfollow, hgrow, hdone⟩ := ih h
      simp only [expandNodes, expandNode_settled h.toLaid hset, Bool.false_or]
      refine ⟨hfollow, hgrow, fun hfalse => ⟨(hdone hfalse).1, ?_⟩⟩
      intro j hj
      rcases mem_cons.mp hj with rfl | hj
      · exact hset
      · exact (hdone hfalse).2 j hj
    · obtain ⟨s', heq, hfollow, hlt⟩ := expandNode_unsettled hcfg h hset
      obtain ⟨hfollow', -, -⟩ := ih hfollow.toProper
      simp only [expandNodes, heq, Bool.true_or]
      exact ⟨hfollow.trans hfollow', fun _ => hlt.trans_subset hfollow'.sub, fun h0 => absurd h0.symm Bool.false_ne_true⟩

/-- The loop ends before its bound is met. -/
theorem expandLoop_spec (hcfg : cfg.Plain) : ∀ (fuel : Nat) {s : State}, Proper tn s →
    tn.paths.length < fuel + s.opened.card →
    Proceeds tn s (expandLoop cfg ⟨[], tn⟩ fuel s) ∧ ∀ i, Settled (expandLoop cfg ⟨[], tn⟩ fuel s) i
  | 0, s, h, hfuel => by
    have hsub : s.opened ⊆ tn.paths.toFinset := fun p hp =>
      mem_toFinset.mpr ((tn.mem_paths p).mpr (h.toLaid.fragment.inside p hp))
    have hcard := (Finset.card_le_card hsub).trans (toFinset_card_le _)
    omega
  | fuel + 1, s, h, hfuel => by
    obtain ⟨hfollow, hgrow, hdone⟩ := expandNodes_spec hcfg (range s.lhs.length) h
    simp only [expandLoop]
    cases hpass : (expandNodes cfg ⟨[], tn⟩ (range s.lhs.length) s).2 with
    | true =>
      have hcard := Finset.card_lt_card (hgrow hpass)
      obtain ⟨hfollow', hset⟩ := expandLoop_spec hcfg fuel hfollow.toProper (by omega)
      exact ⟨hfollow.trans hfollow', hset⟩
    | false =>
      obtain ⟨hsame, hset⟩ := hdone hpass
      refine ⟨hfollow, fun i n hi => ?_⟩
      rw [hsame] at hi
      exact hset i (mem_range.mpr (List.getElem?_eq_some_iff.mp hi).1) n hi

/-- A frontier that needs no change is left as it is. -/
theorem expandState_settled (h : Laid tn s) (hset : ∀ i, Settled s i) :
    expandStateToAdmissibleFrontier cfg ⟨[], tn⟩ s = s := by
  have hpass : ∀ is, expandNodes cfg ⟨[], tn⟩ is s = (s, false) := by
    intro is
    induction is with
    | nil => rfl
    | cons i is ih => simp only [expandNodes, expandNode_settled h (hset i), ih, Bool.or_false]
  simp only [expandStateToAdmissibleFrontier, expandLoop, hpass, if_neg Bool.false_ne_true]

/-- A frontier that needs no change is admissible. -/
theorem admissible_of_settled (h : Laid tn s) (hset : ∀ i, Settled s i) : Admissible tn s.opened where
  toFragment := h.fragment
  root := by
    obtain ⟨n, hn, hp⟩ := Option.map_eq_some_iff.mp h.first
    rcases hset 0 n hn with ho | ⟨-, hne⟩
    · rw [← hp, h.opened_iff (mem_of_getElem? hn)]
      exact ho
    · exact absurd hp hne
  forced p hp k t ht hf := by
    have hmem := h.mem_paths.mpr (.inr ⟨p, k, t, rfl, hp, ht⟩)
    obtain ⟨n, hn, hpath⟩ := mem_map.mp hmem
    obtain ⟨i, hi⟩ := mem_iff_getElem?.mp hn
    have hnode : n.node = t := Option.some.inj ((h.refs n hn).symm.trans (hpath ▸ ht))
    rcases hset i n hi with ho | ⟨hfr, -⟩
    · rw [← hpath, h.opened_iff hn]
      exact ho
    · rw [hnode, hf] at hfr
      cases hfr

/-- **The next admissible frontier** is the least one. -/
theorem expandState_spec (hcfg : cfg.Plain) (h : Proper tn s) :
    Proper tn (expandStateToAdmissibleFrontier cfg ⟨[], tn⟩ s) ∧
      IsLeast (Above tn s.opened) (expandStateToAdmissibleFrontier cfg ⟨[], tn⟩ s).opened ∧
      (expandStateToAdmissibleFrontier cfg ⟨[], tn⟩ s).generationTime = s.generationTime := by
  obtain ⟨hfollow, hset⟩ := expandLoop_spec hcfg (tn.paths.length + 1) h (by omega)
  refine ⟨hfollow.toProper, ⟨⟨admissible_of_settled hfollow.toLaid hset, hfollow.sub⟩, ?_⟩, hfollow.time⟩
  exact fun G hG => hfollow.forced G hG.1 hG.2

end Forcing

/-! ## Duplicates -/

section Duplicates

theorem Fragment.of_append {F : Finset (List Nat)} (h : Fragment tn F) {p : List Nat} (q : List Nat) :
    p ++ q ∈ F → p ∈ F := by
  induction q using List.reverseRecOn with
  | nil => rw [append_nil]; exact id
  | append_singleton q k ih =>
    intro hp
    rw [← append_assoc] at hp
    exact ih (h.connected _ k hp)

namespace Laid

variable (h : Laid tn s)
include h

variable (hi : s.lhs[i]? = some n)
include hi

theorem suc_length (hne : n.suc ≠ []) : n.suc.length = n.node.subtrees.length := by
  have hlen := congrArg List.length (h.sucs i n hi hne)
  rwa [length_map, length_map, NodeRef.length_subtrees] at hlen

theorem node_of_suc (hk : n.suc[k]? = some j) : ∃ m, s.lhs[j]? = some m ∧ m.path = n.path ++ [k] := by
  have hne : n.suc ≠ [] := ne_nil_of_mem (mem_of_getElem? hk)
  have hsuc := congrArg (fun l => l[k]?) (h.sucs i n hi hne)
  simp only [getElem?_map, hk, Option.map_some] at hsuc
  obtain ⟨u, hu, hm⟩ := Option.map_eq_some_iff.mp hsuc.symm
  obtain ⟨m, hm, hpath⟩ := Option.map_eq_some_iff.mp hm.symm
  exact ⟨m, hm, hpath.trans (NodeRef.getElem?_subtrees.mp hu).2⟩

/-- An expanded node is told by being opened. -/
theorem suc_length_eq : n.suc.length = if n.opened && n.node.isInternal then n.node.subtrees.length else 0 := by
  have hn := mem_of_getElem? hi
  by_cases hne : n.suc = []
  · cases hlex : n.lexicalized with
    | false => simp [hne, RuleNode.opened, RuleNode.isInternal, hlex]
    | true => simp [hne, h.leaves n hn hlex]
  · have hlen := h.suc_length hi hne
    have hint : n.node.isInternal = true := by
      rw [TreeNode.isInternal_iff]
      rintro h0
      rw [h0] at hlen
      exact hne (length_eq_zero_iff.mp hlen)
    rw [RuleNode.opened_iff.mpr (.inl hne), hint]
    exact hlen

theorem lexicalized_eq : n.lexicalized = (n.opened && !n.node.isInternal) := by
  have hn := mem_of_getElem? hi
  cases hlex : n.lexicalized with
  | true => simp [RuleNode.opened, hlex, h.leaves n hn hlex]
  | false =>
    have hlen := h.suc_length_eq hi
    cases hint : n.node.isInternal with
    | true => simp
    | false =>
      rw [hint, Bool.and_false, if_neg Bool.false_ne_true, length_eq_zero_iff] at hlen
      simp [RuleNode.opened, RuleNode.isInternal, hlex, hlen]

/-- Below a node there is only what its successors stand for. -/
theorem suc_of_opened {q : List Nat} (hp : n.path ++ k :: q ∈ s.opened) : k < n.suc.length := by
  rw [append_cons] at hp
  have hk := h.fragment.of_append q hp
  obtain ⟨c, hc, -, hpath⟩ := State.mem_opened.mp hk
  obtain ⟨m, hm, hmp, hne⟩ := h.parents c hc n.path k hpath
  rw [h.eq_of_path hm (mem_of_getElem? hi) hmp] at hne
  obtain ⟨j, -, hj, -⟩ := (h.suc_getElem? hi hne).mp (h.fragment.inside _ hk)
  exact (List.getElem?_eq_some_iff.mp hj).1

end Laid

theorem isDuplicateFrom_succ {n1 n2 : RuleNode} (hi : s₁.lhs[i]? = some n1) (hj : s₂.lhs[j]? = some n2) (fuel : Nat) :
    State.isDuplicateFrom s₁ s₂ (fuel + 1) i j = true ↔ n1.path = n2.path ∧ n1.lexicalized = n2.lexicalized ∧
      n1.suc.length = n2.suc.length ∧
      ∀ p ∈ n1.suc.zip n2.suc, State.isDuplicateFrom s₁ s₂ fuel p.1 p.2 = true := by
  simp only [State.isDuplicateFrom, hi, hj, Bool.and_eq_true, decide_eq_true_eq, all_eq_true, and_assoc]

/-- Duplicates have the same nodes opened. -/
theorem isDuplicateFrom_sound (h1 : Laid tn s₁) (h2 : Laid tn s₂) : ∀ (q : List Nat) {fuel i j : Nat} {n1 n2 : RuleNode},
    s₁.lhs[i]? = some n1 → s₂.lhs[j]? = some n2 → State.isDuplicateFrom s₁ s₂ fuel i j = true →
    (n1.path ++ q ∈ s₁.opened ↔ n1.path ++ q ∈ s₂.opened)
  | _, 0, _, _, _, _, _, _, hdup => absurd hdup Bool.false_ne_true
  | [], fuel + 1, i, j, n1, n2, hi, hj, hdup => by
    obtain ⟨hpath, hlex, hlen, -⟩ := (isDuplicateFrom_succ hi hj fuel).mp hdup
    have hnil : n1.suc = [] ↔ n2.suc = [] := by
      rw [← length_eq_zero_iff, hlen, length_eq_zero_iff]
    rw [append_nil, h1.opened_iff (mem_of_getElem? hi), hpath, h2.opened_iff (mem_of_getElem? hj),
      RuleNode.opened_iff, RuleNode.opened_iff, hlex, Ne, hnil]
  | k :: q, fuel + 1, i, j, n1, n2, hi, hj, hdup => by
    obtain ⟨hpath, -, hlen, hall⟩ := (isDuplicateFrom_succ hi hj fuel).mp hdup
    by_cases hk : k < n1.suc.length
    · obtain ⟨a, ha⟩ : ∃ a, n1.suc[k]? = some a := ⟨_, getElem?_eq_getElem hk⟩
      obtain ⟨b, hb⟩ : ∃ b, n2.suc[k]? = some b := ⟨_, getElem?_eq_getElem (hlen ▸ hk)⟩
      have hzip : (a, b) ∈ n1.suc.zip n2.suc := mem_of_getElem? (getElem?_zip_eq_some.mpr ⟨ha, hb⟩)
      obtain ⟨m1, hm1, hp1⟩ := h1.node_of_suc hi ha
      obtain ⟨m2, hm2, -⟩ := h2.node_of_suc hj hb
      rw [append_cons, ← hp1]
      exact isDuplicateFrom_sound h1 h2 q hm1 hm2 (hall _ hzip)
    · refine iff_of_false (fun hp => hk (h1.suc_of_opened hi hp)) (fun hp => hk ?_)
      rw [hpath] at hp
      rw [hlen]
      exact h2.suc_of_opened hj hp

/-- States with the same nodes opened are duplicates: the recursion ends before its bound is met. -/
theorem isDuplicateFrom_complete (h1 : Laid tn s₁) (h2 : Laid tn s₂) (heq : s₁.opened = s₂.opened) :
    ∀ (fuel : Nat) {i j : Nat} {n1 n2 : RuleNode}, s₁.lhs[i]? = some n1 → s₂.lhs[j]? = some n2 → n1.path = n2.path →
    s₁.lhs.length ≤ fuel + i → State.isDuplicateFrom s₁ s₂ fuel i j = true
  | 0, i, j, n1, n2, hi, _, _, hfuel => by
    have hlt := (List.getElem?_eq_some_iff.mp hi).1
    omega
  | fuel + 1, i, j, n1, n2, hi, hj, hpath, hfuel => by
    have hn1 := mem_of_getElem? hi
    have hn2 := mem_of_getElem? hj
    have hnode : n1.node = n2.node := Option.some.inj ((h1.refs n1 hn1).symm.trans (hpath ▸ h2.refs n2 hn2))
    have hopened : n1.opened = n2.opened := by
      rw [Bool.eq_iff_iff, ← h1.opened_iff hn1, ← h2.opened_iff hn2, heq, hpath]
    refine (isDuplicateFrom_succ hi hj fuel).mpr ⟨hpath, ?_, ?_, ?_⟩
    · rw [h1.lexicalized_eq hi, h2.lexicalized_eq hj, hopened, hnode]
    · rw [h1.suc_length_eq hi, h2.suc_length_eq hj, hopened, hnode]
    · rintro ⟨a, b⟩ hmem
      obtain ⟨k, hk⟩ := mem_iff_getElem?.mp hmem
      obtain ⟨ha, hb⟩ := getElem?_zip_eq_some.mp hk
      obtain ⟨m1, hm1, hp1⟩ := h1.node_of_suc hi ha
      obtain ⟨m2, hm2, hp2⟩ := h2.node_of_suc hj hb
      have hlater := h1.later i n1 hi a (mem_of_getElem? ha)
      exact isDuplicateFrom_complete h1 h2 heq fuel hm1 hm2 (by rw [hp1, hp2, hpath]) (by omega)

/-- **Duplicates** are the states with the same nodes opened, where the counters of expansions are right. -/
theorem isDuplicateState_iff (h1 : Laid tn s₁) (h2 : Laid tn s₂)
    (hexp : s₁.opened = s₂.opened → s₁.nbExpansions = s₂.nbExpansions)
    (hors : s₁.nbOrExpansions = s₂.nbOrExpansions) : s₁.isDuplicateState s₂ = true ↔ s₁.opened = s₂.opened := by
  obtain ⟨n1, hn1, hp1⟩ := Option.map_eq_some_iff.mp h1.first
  obtain ⟨n2, hn2, hp2⟩ := Option.map_eq_some_iff.mp h2.first
  unfold State.isDuplicateState
  simp only [Bool.and_eq_true, decide_eq_true_eq]
  constructor
  · rintro ⟨-, hdup⟩
    ext q
    have hq := isDuplicateFrom_sound h1 h2 q hn1 hn2 hdup
    rwa [hp1] at hq
  · intro heq
    refine ⟨⟨⟨?_, hexp heq⟩, hors⟩, isDuplicateFrom_complete h1 h2 heq _ hn1 hn2 (hp1.trans hp2.symm) le_rfl⟩
    have hperm : (s₁.lhs.map RuleNode.path).Perm (s₂.lhs.map RuleNode.path) :=
      (perm_ext_iff_of_nodup h1.nodup h2.nodup).mpr fun p => by rw [h1.mem_paths, h2.mem_paths, heq]
    simpa using hperm.length_eq

end Duplicates

end Sbmt.Ghkm
