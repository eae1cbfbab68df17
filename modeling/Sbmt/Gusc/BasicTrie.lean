import Sbmt.Lib.LowerBound
/-!
# A trie of key sequences (`gusc/trie/basic_trie.hpp`, `gusc/trie/impl/trie_algo.ipp`)

| here | there |
| --- | --- |
| `TrieNode`, `BasicTrie` | `node_`, its key kept beside it with the parent's children, and `basic_trie`: a state is a node's place in the order of allocation, the root is 0 |
| `addChild`, `descend`, `insert` | `insert` (`basic_trie.hpp:144-175`); its search for a key is the one of `transition` |
| `trieFind` | `trie_find` (`trie_algo.ipp:56-80`), the position as the number of keys that were read |

`Paths` says that a trie's nodes are the paths of a list that is closed under prefixes: what each loop does to a
trie it does to that list.
-/

namespace Sbmt.Gusc

open Sbmt.Lib List Option

structure TrieNode (K V : Type) where
  val : V
  children : List (K × Nat)
  parent : Option Nat

structure BasicTrie (K V : Type) where
  nodes : List (TrieNode K V)
  internalNodeCount : Nat
  branchCount : Nat
  nonvalue : V

structure TrieFindResult where
  found : Bool
  pos : Nat
  state : Nat

namespace BasicTrie

variable {K V : Type} [LinearOrder K]

def init (nonvalue : V) : BasicTrie K V := ⟨[⟨nonvalue, [], none⟩], 0, 0, nonvalue⟩

section

variable (t : BasicTrie K V)

def value (s : Nat) : Option V := t.nodes[s]?.map TrieNode.val

def lowerBound (children : List (K × Nat)) (k : K) : Nat := partitionPoint (fun c => decide (c.1 < k)) children

def transition (s : Nat) (k : K) : Bool × Nat :=
  match t.nodes[s]?.bind fun nd => nd.children[lowerBound nd.children k]? with
  | some c => if c.1 = k then (true, c.2) else (false, 0)
  | none => (false, 0)

/-- A new node for `k` below `s`. -/
def addChild (s : Nat) (k : K) : BasicTrie K V where
  nodes := t.nodes.modify s (fun nd =>
    let pos := lowerBound nd.children k
    { nd with children := nd.children.take pos ++ (k, t.nodes.length) :: nd.children.drop pos }) ++
    [⟨t.nonvalue, [], some s⟩]
  internalNodeCount := if t.nodes[s]?.any (·.children.isEmpty) then t.internalNodeCount + 1 else t.internalNodeCount
  branchCount := t.branchCount + 1
  nonvalue := t.nonvalue

def setVal (s : Nat) (v : V) : BasicTrie K V := { t with nodes := t.nodes.modify s fun nd => { nd with val := v } }

end

/-- The loop of `insert`: the trie, and the node of the last key. -/
def descend : List K → Nat → BasicTrie K V → BasicTrie K V × Nat
  | [], s, t => (t, s)
  | k :: ks, s, t =>
    match t.transition s k with
    | (true, c) => descend ks c t
    | (false, _) => descend ks t.nodes.length (t.addChild s k)

/-- The trie, and the pair that is returned. -/
def insert [DecidableEq V] (t : BasicTrie K V) (s : Nat) (ks : List K) (v : V) : BasicTrie K V × Bool × Nat :=
  let (t, curr) := descend ks s t
  if t.value curr = some t.nonvalue then (t.setVal curr v, true, curr) else (t, false, curr)

def findLoop (t : BasicTrie K V) : List K → Nat → Nat → Nat × Nat
  | [], s, pos => (pos, s)
  | k :: ks, s, pos =>
    match t.transition s k with
    | (true, c) => findLoop t ks c (pos + 1)
    | (false, _) => (pos, s)

def trieFind [DecidableEq V] (t : BasicTrie K V) (s : Nat) (ks : List K) : TrieFindResult :=
  let (pos, s) := t.findLoop ks s 0
  ⟨decide (pos = ks.length ∧ t.value s ≠ some t.nonvalue), pos, s⟩

/-- From child to child, these are the keys from one state to another. -/
def Leads (t : BasicTrie K V) : Nat → List K → Nat → Prop
  | s, [], s' => s = s' ∧ s < t.nodes.length
  | s, k :: ks, s' => ∃ nd c, t.nodes[s]? = some nd ∧ (k, c) ∈ nd.children ∧ t.Leads c ks s'

/-- A trie after inserts of values that are not `nonvalue`, at states that keys lead to, and what was inserted. -/
inductive Holds [DecidableEq V] (nonvalue : V) : BasicTrie K V → List (List K × V) → Prop
  | init : Holds nonvalue (init nonvalue) []
  | insert {t : BasicTrie K V} {log : List (List K × V)} {q : List K} {s : Nat} (h : Holds nonvalue t log)
      (hq : t.Leads 0 q s) (ks : List K) {v : V} (hv : v ≠ nonvalue) :
      Holds nonvalue (t.insert s ks v).1 (log ++ [(q ++ ks, v)])

/-! ## Nodes and their paths -/

/-- These are the paths of the nodes. -/
structure Paths (t : BasicTrie K V) (P : List (List K)) : Prop where
  length : P.length = t.nodes.length
  root : P[0]? = some []
  nodup : P.Nodup
  closed : ∀ (p : List K) (k : K), p ++ [k] ∈ P → p ∈ P
  child : ∀ {i : Nat} {nd : TrieNode K V} {p : List K}, t.nodes[i]? = some nd → P[i]? = some p →
    ∀ k c, (k, c) ∈ nd.children ↔ P[c]? = some (p ++ [k])
  sorted : ∀ nd ∈ t.nodes, nd.children.Pairwise fun c d => c.1 < d.1

variable {t : BasicTrie K V} {P : List (List K)} {nd : TrieNode K V} {s c i : Nat} {p q ks : List K} {k : K} {v : V}

omit [LinearOrder K] in
theorem getElem?_concat {x : List K} : (P ++ [x])[i]? = some q ↔ P[i]? = some q ∨ i = P.length ∧ q = x := by
  rcases Nat.lt_trichotomy i P.length with h | rfl | h
  · simp [getElem?_append_left h, h.ne]
  · simp [eq_comm]
  · simp [getElem?_eq_none h.le, h.ne', getElem?_eq_none (show (P ++ [x]).length ≤ i by simpa using h)]

namespace Paths

variable (h : Paths t P)
include h

theorem prefix_mem (hmem : p ++ ks ∈ P) : p ∈ P := by
  induction ks using List.reverseRecOn with
  | nil => simpa using hmem
  | append_singleton ks k ih => exact ih (h.closed _ k (by simpa using hmem))

theorem inj (hi : P[i]? = some p) (hj : P[c]? = some p) : i = c :=
  (getElem?_inj (List.getElem?_eq_some_iff.mp hi).1 h.nodup).mp (hi.trans hj.symm)

variable (hs : P[s]? = some p)
include hs

theorem node : ∃ nd, t.nodes[s]? = some nd :=
  ⟨_, getElem?_eq_getElem (h.length ▸ (List.getElem?_eq_some_iff.mp hs).1)⟩

theorem leads_iff : t.Leads s ks i ↔ P[i]? = some (p ++ ks) := by
  induction ks generalizing s p with
  | nil =>
    rw [append_nil]
    constructor
    · rintro ⟨rfl, -⟩
      exact hs
    · intro hi
      exact ⟨h.inj hs hi, h.length ▸ (List.getElem?_eq_some_iff.mp hs).1⟩
  | cons k ks ih =>
    rw [show p ++ k :: ks = p ++ [k] ++ ks by simp]
    constructor
    · rintro ⟨nd, c, hnd, hc, hlead⟩
      exact (ih ((h.child hnd hs k c).mp hc)).mp hlead
    · intro hi
      obtain ⟨nd, hnd⟩ := h.node hs
      obtain ⟨c, hc⟩ := mem_iff_getElem?.mp (h.prefix_mem (mem_of_getElem? hi))
      exact ⟨nd, c, hnd, (h.child hnd hs k c).mpr hc, (ih hc).mpr hi⟩

/-! ## One key -/

omit hs in
theorem parted (hnd : t.nodes[s]? = some nd) (k : K) : Parted (fun c => decide (c.1 < k)) nd.children :=
  (h.sorted nd (mem_of_getElem? hnd)).imp fun hlt hk => decide_eq_true (hlt.trans (of_decide_eq_true hk))

theorem transition_found (hc : P[c]? = some (p ++ [k])) : t.transition s k = (true, c) := by
  obtain ⟨nd, hnd⟩ := h.node hs
  obtain ⟨j, hj, hjc⟩ := mem_iff_getElem.mp ((h.child hnd hs k c).mpr hc)
  have hsorted := pairwise_iff_getElem.mp (h.sorted nd (mem_of_getElem? hnd))
  have hplace : lowerBound nd.children k = j := by
    refine partitionPoint_unique (h.parted hnd k) hj.le fun i hi => ?_
    rcases Nat.lt_trichotomy i j with hij | rfl | hij
    · simpa [hij, hjc] using hsorted i j hi hj hij
    · simp [hjc]
    · simpa [Nat.not_lt.mpr hij.le, hjc] using (hsorted j i hj hi hij).le
  simp [transition, hnd, hplace, getElem?_eq_getElem hj, hjc]

theorem transition_missing (hk : p ++ [k] ∉ P) : t.transition s k = (false, 0) := by
  obtain ⟨nd, hnd⟩ := h.node hs
  simp only [transition, hnd, bind_some]
  split
  · rename_i c hc
    refine if_neg ?_
    rintro rfl
    exact hk (mem_of_getElem? ((h.child hnd hs c.1 c.2).mp (mem_of_getElem? hc)))
  · rfl

/-! ## A new node -/

omit hs in
omit h in
/-- The nodes, once there is a new one: it, and the others as they were but for the children of `s`. -/
theorem addChild_node (hnd : (t.addChild s k).nodes[i]? = some nd) :
    i = t.nodes.length ∧ nd = ⟨t.nonvalue, [], some s⟩ ∨ ∃ nd0, t.nodes[i]? = some nd0 ∧ i < t.nodes.length ∧
      nd.val = nd0.val ∧ nd.children = if i = s then nd0.children.take (lowerBound nd0.children k) ++
        (k, t.nodes.length) :: nd0.children.drop (lowerBound nd0.children k) else nd0.children := by
  rcases Nat.lt_trichotomy i t.nodes.length with hi | rfl | hi
  · rw [BasicTrie.addChild, getElem?_append_left (by simpa using hi), getElem?_modify] at hnd
    obtain ⟨nd0, h0, rfl⟩ := map_eq_some_iff.mp hnd
    refine .inr ⟨nd0, h0, hi, ?_⟩
    by_cases his : i = s
    · simp [his]
    · simp [his, Ne.symm his]
  · exact .inl ⟨rfl, by simpa [BasicTrie.addChild] using hnd.symm⟩
  · have hlen := (List.getElem?_eq_some_iff.mp hnd).1
    simp [BasicTrie.addChild] at hlen
    omega

omit hs in
omit h in
theorem addChild_value (t : BasicTrie K V) (s : Nat) (k : K) (i : Nat) :
    (t.addChild s k).value i = if i = t.nodes.length then some t.nonvalue else t.value i := by
  have hlen : (t.addChild s k).nodes.length = t.nodes.length + 1 := by simp [BasicTrie.addChild]
  rcases h : (t.addChild s k).nodes[i]? with _ | nd
  · have hi := List.getElem?_eq_none_iff.mp h
    simp [value, h, getElem?_eq_none (show t.nodes.length ≤ i by omega), show i ≠ t.nodes.length by omega]
  · rcases addChild_node h with ⟨rfl, rfl⟩ | ⟨nd0, h0, hi, hval, -⟩
    · simp [value, h]
    · simp [value, h, h0, hi.ne, hval]

/-- **A new node has the path that was missing.** -/
theorem addChild (hk : p ++ [k] ∉ P) : Paths (t.addChild s k) (P ++ [p ++ [k]]) := by
  have hp := mem_of_getElem? hs
  refine ⟨by simp [BasicTrie.addChild, h.length], getElem?_concat.mpr (.inl h.root), ?_, fun q l hq => ?_,
    fun {i nd q} hnd hq l c => ?_, fun nd hnd => ?_⟩
  · exact nodup_append.mpr ⟨h.nodup, nodup_singleton _, fun a ha b hb hab => hk (by simp_all)⟩
  · rcases mem_append.mp hq with hq | hq
    · exact mem_append_left _ (h.closed q l hq)
    · obtain ⟨rfl, -⟩ := append_inj' (mem_singleton.mp hq) rfl
      exact mem_append_left _ hp
  · rw [getElem?_concat]
    rcases addChild_node hnd with ⟨rfl, rfl⟩ | ⟨nd0, h0, hi, -, hchildren⟩
    · rw [← h.length] at hq
      obtain rfl : p ++ [k] = q := by simpa using hq
      have hnone : P[c]? ≠ some (p ++ [k] ++ [l]) := fun hc => hk (h.closed _ l (mem_of_getElem? hc))
      simpa using hnone
    · have hq0 : P[i]? = some q := (getElem?_concat.mp hq).resolve_right fun h' => hi.ne (h'.1.trans h.length)
      rw [hchildren, ← h.child h0 hq0 l c]
      by_cases his : i = s
      · subst his
        obtain rfl : p = q := mem_unique hs hq0
        rw [if_pos rfl, mem_append, mem_cons, or_left_comm, ← mem_append]
        simp [h.length, and_comm, or_comm]
      · rw [if_neg his]
        refine (or_iff_left ?_).symm
        rintro ⟨-, heq⟩
        obtain ⟨rfl, -⟩ := append_inj' heq rfl
        exact his (h.inj hq0 hs)
  · obtain ⟨i, hi⟩ := mem_iff_getElem?.mp hnd
    rcases addChild_node hi with ⟨rfl, rfl⟩ | ⟨nd0, h0, -, -, hchildren⟩
    · exact .nil
    · have hold := h.sorted nd0 (mem_of_getElem? h0)
      rw [hchildren]
      by_cases his : i = s
      · subst his
        have hside : ∀ {j : Nat} (hj : j < nd0.children.length),
            (j < lowerBound nd0.children k ↔ nd0.children[j].1 < k) ∧ nd0.children[j].1 ≠ k := by
          intro j hj
          refine ⟨(lt_partitionPoint_iff (h.parted h0 k) hj).trans decide_eq_true_iff, ?_⟩
          rintro rfl
          exact hk (mem_of_getElem? ((h.child h0 hs _ _).mp (getElem_mem hj)))
        rw [if_pos rfl, pairwise_append, pairwise_cons]
        refine ⟨hold.sublist (take_sublist ..), ⟨?_, hold.sublist (drop_sublist ..)⟩, ?_⟩
        · intro d hd
          obtain ⟨j, hj, rfl⟩ := mem_drop_iff_getElem.mp hd
          obtain ⟨hiff, hne⟩ := hside (Nat.add_comm j _ ▸ hj)
          exact lt_of_le_of_ne (not_lt.mp fun hlt => absurd (hiff.mpr hlt) (by omega)) (Ne.symm hne)
        · intro a ha d hd
          obtain ⟨i, hi, rfl⟩ := mem_take_iff_getElem.mp ha
          have hlt := (hside (by omega)).1.mp (show i < _ by omega)
          rcases mem_cons.mp hd with rfl | hd
          · exact hlt
          · obtain ⟨j, hj, rfl⟩ := mem_drop_iff_getElem.mp hd
            exact pairwise_iff_getElem.mp hold i _ (by omega) (Nat.add_comm j _ ▸ hj) (by omega)
      · rwa [if_neg his]

/-! ## All keys of an insert -/

omit hs in
theorem setVal (s : Nat) (v : V) : Paths (t.setVal s v) P := by
  have hold : ∀ {i : Nat} {nd : TrieNode K V}, (t.setVal s v).nodes[i]? = some nd →
      ∃ nd0, t.nodes[i]? = some nd0 ∧ nd.children = nd0.children := by
    intro i nd hnd
    rw [BasicTrie.setVal, getElem?_modify] at hnd
    obtain ⟨nd0, h0, rfl⟩ := map_eq_some_iff.mp hnd
    by_cases his : s = i
    · exact ⟨nd0, h0, by simp [his]⟩
    · exact ⟨nd0, h0, by simp [his]⟩
  refine ⟨by simp [BasicTrie.setVal, h.length], h.root, h.nodup, h.closed, fun {i nd p} hnd hp k c => ?_,
    fun nd hnd => ?_⟩
  · obtain ⟨nd0, h0, heq⟩ := hold hnd
    exact heq ▸ h.child h0 hp k c
  · obtain ⟨i, hi⟩ := mem_iff_getElem?.mp hnd
    obtain ⟨nd0, h0, heq⟩ := hold hi
    exact heq ▸ h.sorted nd0 (mem_of_getElem? h0)

/-- **The loop of an insert** ends at the path of the keys; the paths it adds have no value, and there are none when
the path was there. -/
theorem descend (ks : List K) :
    ∃ Q, Paths (BasicTrie.descend ks s t).1 (P ++ Q) ∧ (P ++ Q)[(BasicTrie.descend ks s t).2]? = some (p ++ ks) ∧
      (BasicTrie.descend ks s t).1.nonvalue = t.nonvalue ∧
      (∀ i, i < (P ++ Q).length → (BasicTrie.descend ks s t).1.value i =
        if i < P.length then t.value i else some t.nonvalue) ∧
      (p ++ ks ∈ P → (BasicTrie.descend ks s t).1 = t) := by
  induction ks generalizing t P s p with
  | nil =>
    rw [BasicTrie.descend, append_nil]
    refine ⟨[], by simpa using h, by simpa using hs, rfl, fun i hi => ?_, fun _ => rfl⟩
    rw [if_pos (by simpa using hi)]
  | cons k ks ih =>
    rw [show p ++ k :: ks = p ++ [k] ++ ks by simp]
    by_cases hk : p ++ [k] ∈ P
    · obtain ⟨c, hc⟩ := mem_iff_getElem?.mp hk
      have hstep : BasicTrie.descend (k :: ks) s t = BasicTrie.descend ks c t := by
        simp [BasicTrie.descend, h.transition_found hs hc]
      rw [hstep]
      exact ih h hc
    · have hstep : BasicTrie.descend (k :: ks) s t = BasicTrie.descend ks t.nodes.length (t.addChild s k) := by
        simp [BasicTrie.descend, h.transition_missing hs hk]
      have hnew : (P ++ [p ++ [k]])[t.nodes.length]? = some (p ++ [k]) :=
        getElem?_concat.mpr (.inr ⟨h.length.symm, rfl⟩)
      obtain ⟨Q, hQ, hend, hnon, hval, -⟩ := ih (h.addChild hs hk) hnew
      rw [hstep]
      rw [append_assoc] at hQ hend hval
      refine ⟨[p ++ [k]] ++ Q, hQ, hend, hnon, fun i hi => ?_, fun hmem => absurd (h.prefix_mem hmem) hk⟩
      rw [hval i hi, addChild_value, length_append, ← h.length]
      grind [BasicTrie.addChild]

/-! ## A lookup -/

/-- The loop of a lookup stops below the longest path there is. -/
theorem findLoop (ks : List K) (pos : Nat) :
    ∃ n ≤ ks.length, (t.findLoop ks s pos).1 = pos + n ∧ P[(t.findLoop ks s pos).2]? = some (p ++ ks.take n) ∧
      (n < ks.length → p ++ ks.take (n + 1) ∉ P) := by
  induction ks generalizing s p pos with
  | nil => exact ⟨0, le_rfl, rfl, by simpa [BasicTrie.findLoop] using hs, fun hlt => absurd hlt (Nat.lt_irrefl 0)⟩
  | cons k ks ih =>
    by_cases hk : p ++ [k] ∈ P
    · obtain ⟨c, hc⟩ := mem_iff_getElem?.mp hk
      obtain ⟨n, hn, hpos, hend, hstop⟩ := ih hc (pos + 1)
      have hstep : t.findLoop (k :: ks) s pos = t.findLoop ks c (pos + 1) := by
        simp [BasicTrie.findLoop, h.transition_found hs hc]
      refine ⟨n + 1, by simpa using hn, by rw [hstep]; omega, by simpa [hstep] using hend, fun hlt => ?_⟩
      simpa using hstop (by simpa using hlt)
    · have hstep : t.findLoop (k :: ks) s pos = (pos, s) := by
        simp [BasicTrie.findLoop, h.transition_missing hs hk]
      exact ⟨0, Nat.zero_le _, by simp [hstep], by simpa [hstep] using hs, fun _ => by simpa using hk⟩

end Paths

/-! ## Inserts, one after another -/

variable [DecidableEq V] {nonvalue : V} {log : List (List K × V)}

/-- The trie has these paths, and at each the value that was inserted there first. -/
structure Spells (t : BasicTrie K V) (nonvalue : V) (P : List (List K)) (log : List (List K × V)) : Prop where
  paths : Paths t P
  nonvalue_eq : t.nonvalue = nonvalue
  value : ∀ i p, P[i]? = some p →
    t.value i = some (((log.find? fun e => decide (e.1 = p)).map Prod.snd).getD nonvalue)
  logged : ∀ e ∈ log, e.1 ∈ P ∧ e.2 ≠ nonvalue

omit [DecidableEq V] in
/-- A path has a value once it was inserted, and only then. -/
theorem Spells.value_eq_nonvalue (h : Spells t nonvalue P log) (hi : P[i]? = some p) :
    t.value i = some t.nonvalue ↔ ∀ e ∈ log, e.1 ≠ p := by
  rw [h.value i p hi, h.nonvalue_eq, Option.some.injEq]
  rcases hfind : log.find? fun e => decide (e.1 = p) with _ | e
  · simpa [hfind] using find?_eq_none.mp hfind
  · have he : e.1 = p := by simpa using find?_some hfind
    have hmem := mem_of_find?_eq_some hfind
    exact iff_of_false (by simpa [hfind] using (h.logged e hmem).2) fun hall => hall e hmem he

theorem Spells.insert (h : Spells t nonvalue P log) (hs : P[s]? = some q) (ks : List K) (hv : v ≠ nonvalue) :
    ∃ P', Spells (t.insert s ks v).1 nonvalue P' (log ++ [(q ++ ks, v)]) := by
  obtain ⟨Q, hQ, hend, hnon, hval, -⟩ := h.paths.descend hs ks
  rw [BasicTrie.insert]
  generalize BasicTrie.descend ks s t = r at hQ hend hnon hval
  have hdesc : Spells r.1 nonvalue (P ++ Q) log := by
    refine ⟨hQ, hnon.trans h.nonvalue_eq, fun i p hi => ?_, fun e he => ?_⟩
    · rw [hval i (List.getElem?_eq_some_iff.mp hi).1]
      split
      · rename_i hlt
        exact h.value i p (by rwa [getElem?_append_left hlt] at hi)
      · have hp : p ∉ P := fun hp => (nodup_append.mp hQ.nodup).2.2 p hp p
          (mem_of_getElem? (by rwa [getElem?_append_right (by omega)] at hi)) rfl
        have hnone : (log.find? fun e => decide (e.1 = p)) = none := by
          simpa using fun k v hkv (hk : k = p) => hp (hk ▸ (h.logged (k, v) hkv).1)
        simp [hnone, h.nonvalue_eq]
    · exact ⟨mem_append_left _ (h.logged e he).1, (h.logged e he).2⟩
  have hlogged : ∀ e ∈ log ++ [(q ++ ks, v)], e.1 ∈ P ++ Q ∧ e.2 ≠ nonvalue := by
    intro e he
    rcases mem_append.mp he with he | he
    · exact hdesc.logged e he
    · exact mem_singleton.mp he ▸ ⟨mem_of_getElem? hend, hv⟩
  refine ⟨P ++ Q, ?_⟩
  simp only
  split
  · rename_i hfresh
    have habsent := (hdesc.value_eq_nonvalue hend).mp hfresh
    refine ⟨hQ.setVal _ v, hdesc.nonvalue_eq, fun i p hi => ?_, hlogged⟩
    have hset : (r.1.setVal r.2 v).value i = if i = r.2 then some v else r.1.value i := by
      obtain ⟨nd, hnd⟩ := hQ.node hi
      rw [BasicTrie.value, BasicTrie.value, BasicTrie.setVal]
      by_cases hir : i = r.2
      · simp [← hir, hnd]
      · simp [hnd, hir, Ne.symm hir]
    rw [hset]
    by_cases hp : q ++ ks = p
    · have hnone : (log.find? fun e => decide (e.1 = p)) = none :=
        find?_eq_none.mpr fun e he => by simpa using hp ▸ habsent e he
      obtain rfl : i = r.2 := hQ.inj hi (hp ▸ hend)
      simp [hnone, hp]
    · have hir : i ≠ r.2 := by
        rintro rfl
        exact hp (mem_unique hend hi)
      simp [hir, hp, hdesc.value i p hi]
  · rename_i hold
    obtain ⟨e0, he0, hkey⟩ := not_forall₂.mp fun hall => hold ((hdesc.value_eq_nonvalue hend).mpr hall)
    refine ⟨hQ, hdesc.nonvalue_eq, fun i p hi => ?_, hlogged⟩
    rw [hdesc.value i p hi]
    by_cases hp : q ++ ks = p
    · have hsome : (log.find? fun e => decide (e.1 = p)).isSome :=
        find?_isSome.mpr ⟨e0, he0, decide_eq_true ((not_not.mp hkey).trans hp)⟩
      obtain ⟨e, he⟩ := isSome_iff_exists.mp hsome
      simp [he]
    · simp [hp]

theorem Holds.spells (h : Holds nonvalue t log) : ∃ P, Spells t nonvalue P log := by
  induction h with
  | init =>
    refine ⟨[[]], ⟨rfl, rfl, nodup_singleton _, fun p k hp => by simp at hp, fun {i nd p} hnd hp k c => ?_,
      fun nd hnd => ?_⟩, rfl, fun i p hi => ?_, fun e he => absurd he not_mem_nil⟩
    · obtain ⟨rfl, rfl⟩ : i = 0 ∧ nd = ⟨nonvalue, [], none⟩ := by
        simpa [BasicTrie.init, getElem?_singleton, eq_comm] using hnd
      simp [getElem?_singleton]
    · obtain rfl : nd = ⟨nonvalue, [], none⟩ := by simpa [BasicTrie.init] using hnd
      exact .nil
    · obtain rfl : i = 0 := by simpa using (List.getElem?_eq_some_iff.mp hi).1
      rfl
  | insert h hq ks hv ih =>
    obtain ⟨P, hP⟩ := ih
    have hs := (hP.paths.leads_iff hP.paths.root).mp hq
    exact hP.insert hs ks hv

/-- **A trie is the map of what was inserted.** A lookup finds exactly the sequences that were, with the value of the
first insert, and stops at the longest prefix that is a path; a second insert changes nothing, and the children of
every node are in strict order. -/
theorem basicTrie_refines (h : Holds nonvalue t log) :
    (∀ ks,
      ((t.trieFind 0 ks).found = true ↔ ∃ e ∈ log, e.1 = ks) ∧
      (∀ e, log.find? (fun e => decide (e.1 = ks)) = some e → t.value (t.trieFind 0 ks).state = some e.2) ∧
      (t.trieFind 0 ks).pos ≤ ks.length ∧ t.Leads 0 (ks.take (t.trieFind 0 ks).pos) (t.trieFind 0 ks).state ∧
      ∀ n ≤ ks.length, ∀ s, t.Leads 0 (ks.take n) s → n ≤ (t.trieFind 0 ks).pos) ∧
    (∀ q s ks v, t.Leads 0 q s → (∃ e ∈ log, e.1 = q ++ ks) → ∃ c, t.insert s ks v = (t, false, c)) ∧
    ∀ nd ∈ t.nodes, nd.children.Pairwise fun c d => c.1 < d.1 := by
  obtain ⟨P, hP⟩ := h.spells
  have hroot := hP.paths.root
  refine ⟨fun ks => ?_, fun q s ks v hq ⟨e, he, hkey⟩ => ?_, hP.paths.sorted⟩
  · obtain ⟨n, hn, hpos, hend, hstop⟩ := hP.paths.findLoop hroot ks 0
    rw [Nat.zero_add] at hpos
    rw [nil_append] at hend
    have hlongest : ∀ m ≤ ks.length, ks.take m ∈ P → m ≤ n := by
      intro m hm hmem
      by_contra hlt
      have htake : (ks.take m).take (n + 1) = ks.take (n + 1) := by rw [take_take, Nat.min_eq_left (by omega)]
      rw [← take_append_drop (n + 1) (ks.take m), htake] at hmem
      exact hstop (by omega) (hP.paths.prefix_mem hmem)
    have hfull : ks ∈ P → n = ks.length := fun hks => le_antisymm hn (hlongest _ le_rfl (by simpa using hks))
    have hlead : ∀ {m s}, t.Leads 0 (ks.take m) s ↔ P[s]? = some (ks.take m) := hP.paths.leads_iff hroot
    have hvalue := hP.value_eq_nonvalue hend
    simp only [trieFind, hpos]
    refine ⟨?_, fun e he => ?_, hn, hlead.mpr hend, fun m hm s hs =>
      hlongest m hm (mem_of_getElem? (hlead.mp hs))⟩
    · rw [decide_eq_true_iff, ne_eq, hvalue]
      constructor
      · rintro ⟨rfl, hex⟩
        simpa using hex
      · rintro ⟨e, he, rfl⟩
        have hlen := hfull (hP.logged e he).1
        exact ⟨hlen, fun hall => hall e he (by rw [hlen, take_length])⟩
    · have hkey : e.1 = ks := by simpa using find?_some he
      have hlen := hfull (hkey ▸ (hP.logged e (mem_of_find?_eq_some he)).1)
      rw [hP.value _ _ hend, hlen, take_length, he]
      rfl
  · have hs := (hP.paths.leads_iff hroot).mp hq
    obtain ⟨Q, hQ, hend, -, -, hsame⟩ := hP.paths.descend hs ks
    have hdesc := hsame (hkey ▸ (hP.logged e he).1)
    obtain rfl : Q = [] := by
      have hlen := hQ.length
      rw [hdesc, ← hP.paths.length, length_append] at hlen
      exact length_eq_zero_iff.mp (by omega)
    rw [append_nil] at hend
    have hold : ¬ t.value (BasicTrie.descend ks s t).2 = some t.nonvalue := fun hnew =>
      (hP.value_eq_nonvalue hend).mp hnew e he hkey
    refine ⟨(BasicTrie.descend ks s t).2, ?_⟩
    simp only [insert, hdesc, if_neg hold]

/-- Three inserts, the second at an inner state and the third of a prefix. -/
theorem basicTrie_refines_three : ∃ t : BasicTrie Nat Nat, (t.trieFind 0 [2, 1]).found = true ∧
    t.value (t.trieFind 0 [2]).state = some 6 ∧ ∃ c, t.insert 1 [1] 9 = (t, false, c) := by
  have h0 : Holds 0 (init 0 : BasicTrie Nat Nat) [] := .init
  have h1 := h0.insert (q := []) (s := 0) ⟨rfl, by decide⟩ [2, 3] (v := 7) (by decide)
  have h2 := h1.insert (q := [2]) (s := 1) ⟨_, 1, rfl, .head _, rfl, by decide⟩ [1] (v := 8) (by decide)
  have h3 := h2.insert (q := []) (s := 0) ⟨rfl, by decide⟩ [2] (v := 6) (by decide)
  obtain ⟨hfind, hins, -⟩ := basicTrie_refines h3
  exact ⟨_, (hfind [2, 1]).1.mpr ⟨([2, 1], 8), by decide, rfl⟩, (hfind [2]).2.1 ([2], 6) rfl,
    hins [2] 1 [1] 9 ⟨_, 1, rfl, .head _, rfl, by decide⟩ ⟨([2, 1], 8), by decide, rfl⟩⟩

end BasicTrie

end Sbmt.Gusc
