import Sbmt.Lib.Numbering

/-!
# Building a graph from its start with a worklist

A graph is given by what leaves a key: `out k` lists labels and keys. Keys are
numbered as they are met. A key that is met for the first time waits in the
queue until it is taken from there and its links are made, in the order of
`out`; an eager key does not wait, its links are made at once. Each link is also
handed to `record`, which keeps a store of its own and stamps the link.

The main results: with fuel for every key the queue runs empty (`run_spec`), the
links are then those of the graph (`Built`), and what `record` promises of a
stamp holds of all stamps (`run_stamped`).
-/

namespace Sbmt.Lib

open List Function

variable {K O Γ G : Type*}

/-- The number of a key in a list without repetitions. -/
theorem idxOf?_eq_some [DecidableEq K] {keys : List K} (h : keys.Nodup) {k : K} {j : Nat} :
    keys.idxOf? k = some j ↔ keys[j]? = some k := by
  rw [idxOf?_eq_some_iff, List.getElem?_eq_some_iff]
  constructor
  · rintro ⟨hlt, heq, -⟩
    exact ⟨hlt, heq⟩
  · rintro ⟨hlt, heq⟩
    refine ⟨hlt, heq, ?_⟩
    intro i hi heqi
    exact Nat.ne_of_lt hi ((Nodup.getElem_inj_iff h).1 (heqi.trans heq.symm))

structure Table (K O Γ G : Type*) where
  keys : List K
  links : Nat → List (Link O)
  stamps : Nat → List G
  queue : List Nat
  store : Γ

namespace Table

variable [DecidableEq K] (out : K → List (O × K)) (eager : K → Bool) (record : Γ → O → Γ × G)

/-- A link to a key that has its number. -/
def attach (src : Nat) (τ : Table K O Γ G) (p : O × K) : Table K O Γ G where
  keys := τ.keys
  links := update τ.links src (⟨src, τ.keys.idxOf p.2, p.1⟩ :: τ.links src)
  stamps := update τ.stamps src ((record τ.store p.1).2 :: τ.stamps src)
  queue := τ.queue
  store := (record τ.store p.1).1

/-- A key gets a number, and waits, when it is new. -/
def enter (τ : Table K O Γ G) (k : K) : Table K O Γ G :=
  if k ∈ τ.keys then τ else { τ with keys := τ.keys ++ [k], queue := τ.keys.length :: τ.queue }

def addLazy (src : Nat) (τ : Table K O Γ G) (p : O × K) : Table K O Γ G := attach record src (enter τ p.2) p

/-- A key that does not wait: what leaves it is to be keys that do. -/
def enterEager (τ : Table K O Γ G) (k : K) : Table K O Γ G :=
  if k ∈ τ.keys then τ else (out k).foldl (addLazy record τ.keys.length) { τ with keys := τ.keys ++ [k] }

def addArc (src : Nat) (τ : Table K O Γ G) (p : O × K) : Table K O Γ G :=
  attach record src (if eager p.2 then enterEager out record τ p.2 else enter τ p.2) p

/-- The links of the number taken from the queue. -/
def process (s : Nat) (τ : Table K O Γ G) : Table K O Γ G :=
  match τ.keys[s]? with
  | none => τ
  | some k => (out k).foldl (addArc out eager record s) τ

def run : Nat → Table K O Γ G → Option (Table K O Γ G)
  | 0, τ => if τ.queue = [] then some τ else none
  | fuel + 1, τ =>
    match τ.queue with
    | [] => some τ
    | s :: queue => run fuel (process out eager record s { τ with queue := queue })

def start (k : K) (store : Γ) : Table K O Γ G := ⟨[k], fun _ => [], fun _ => [], [0], store⟩

/-! ## What is kept -/

variable {out eager record} {τ : Table K O Γ G}

/-- The number `j` has the links of `ps`. -/
structure Full (τ : Table K O Γ G) (j : Nat) (ps : List (O × K)) : Prop where
  keys : ∀ p ∈ ps, p.2 ∈ τ.keys
  links : τ.links j = (ps.map fun p => ⟨j, τ.keys.idxOf p.2, p.1⟩).reverse

/-- `busy` are the numbers whose links are being made, with what has been made. -/
structure Inv (out : K → List (O × K)) (τ : Table K O Γ G) (busy : List (Nat × List (O × K))) : Prop where
  nodup : τ.keys.Nodup
  queueNodup : τ.queue.Nodup
  queued : ∀ j ∈ τ.queue, j < τ.keys.length ∧ τ.links j = [] ∧ j ∉ busy.map Prod.fst
  busyNodup : (busy.map Prod.fst).Nodup
  partly : ∀ b ∈ busy, b.1 < τ.keys.length ∧ Full τ b.1 b.2
  done : ∀ j k, τ.keys[j]? = some k → j ∉ τ.queue → j ∉ busy.map Prod.fst → Full τ j (out k)
  fresh : ∀ j, τ.keys.length ≤ j → τ.links j = []

variable {ps : List (O × K)} {j : Nat}

/-- A longer table has the same links for a number that is not touched. -/
theorem Full.extend {τ' : Table K O Γ G} (h : Full τ j ps) (hkeys : τ.keys <+: τ'.keys)
    (hlinks : τ'.links j = τ.links j) : Full τ' j ps where
  keys := fun p hp => hkeys.subset (h.keys p hp)
  links := by
    obtain ⟨t, ht⟩ := hkeys
    rw [hlinks, h.links]
    congr 1
    apply map_congr_left
    intro p hp
    rw [← ht, idxOf_append_of_mem (h.keys p hp)]

variable {busy : List (Nat × List (O × K))} {src : Nat}

theorem Inv.attach {p : O × K} (h : Inv out τ ((src, ps) :: busy)) (hp : p.2 ∈ τ.keys) :
    Inv out (attach record src τ p) ((src, ps ++ [p]) :: busy) := by
  have hother : ∀ j, j ≠ src → (Table.attach record src τ p).links j = τ.links j :=
    fun j hj => update_of_ne hj _ _
  obtain ⟨hsrcBusy, hbusy⟩ := nodup_cons.1 h.busyNodup
  obtain ⟨hlt, hfull⟩ := h.partly (src, ps) (mem_cons_self ..)
  refine ⟨h.nodup, h.queueNodup, ?_, h.busyNodup, ?_, ?_, ?_⟩
  · intro j hj
    obtain ⟨hjlt, hjlinks, hjbusy⟩ := h.queued j hj
    have hne : j ≠ src := fun heq => hjbusy (heq ▸ mem_cons_self ..)
    exact ⟨hjlt, (hother j hne).trans hjlinks, hjbusy⟩
  · intro b hb
    rcases mem_cons.1 hb with rfl | hb
    · refine ⟨hlt, ?_, ?_⟩
      · intro q hq
        rcases mem_append.1 hq with hq | hq
        · exact hfull.keys q hq
        · exact mem_singleton.1 hq ▸ hp
      · show update τ.links src _ src = _
        rw [update_self, hfull.links, map_append, reverse_append]
        rfl
    · obtain ⟨hblt, hbfull⟩ := h.partly b (mem_cons_of_mem _ hb)
      have hne : b.1 ≠ src := by
        intro heq
        have hmem := mem_map_of_mem (f := Prod.fst) hb
        rw [heq] at hmem
        exact hsrcBusy hmem
      exact ⟨hblt, hbfull.extend prefix_rfl (hother b.1 hne)⟩
  · intro j k hj hq hb
    have hne : j ≠ src := fun heq => hb (heq ▸ mem_cons_self ..)
    exact (h.done j k hj hq hb).extend prefix_rfl (hother j hne)
  · intro j hj
    exact (hother j (Nat.ne_of_gt (Nat.lt_of_lt_of_le hlt hj))).trans (h.fresh j hj)

variable {k : K}

omit [DecidableEq K] in
/-- The number of a key in a longer table. -/
theorem getElem?_concat {keys : List K} {k' : K} (h : (keys ++ [k])[j]? = some k') :
    keys[j]? = some k' ∨ j = keys.length ∧ k' = k := by
  rcases Nat.lt_or_ge j keys.length with hlt | hge
  · rw [getElem?_append_left hlt] at h
    exact .inl h
  · right
    rw [getElem?_append_right hge] at h
    obtain ⟨hz, heq⟩ := List.getElem?_eq_some_iff.1 h
    have hzero : j - keys.length = 0 := by simpa using hz
    refine ⟨by omega, ?_⟩
    simp only [hzero, getElem_cons_zero] at heq
    exact heq.symm

theorem Inv.enter (h : Inv out τ busy) (k : K) : Inv out (enter τ k) busy ∧ k ∈ (enter τ k).keys := by
  unfold Table.enter
  split
  · exact ⟨h, ‹_›⟩
  · rename_i hk
    refine ⟨⟨?_, ?_, ?_, h.busyNodup, ?_, ?_, ?_⟩, mem_append_right _ (mem_singleton.2 rfl)⟩
    · refine nodup_append.2 ⟨h.nodup, nodup_singleton k, ?_⟩
      intro x hx y hy heq
      exact hk (mem_singleton.1 hy ▸ heq ▸ hx)
    · refine nodup_cons.2 ⟨?_, h.queueNodup⟩
      intro hmem
      exact Nat.lt_irrefl _ (h.queued _ hmem).1
    · intro j hj
      have hlen : (τ.keys ++ [k]).length = τ.keys.length + 1 := by simp
      rcases mem_cons.1 hj with rfl | hj
      · refine ⟨by rw [hlen]; exact Nat.lt_succ_self _, h.fresh _ (Nat.le_refl _), ?_⟩
        intro hmem
        obtain ⟨b, hb, heq⟩ := mem_map.1 hmem
        exact Nat.ne_of_lt (h.partly b hb).1 heq
      · obtain ⟨hlt, hlinks, hb⟩ := h.queued j hj
        exact ⟨by rw [hlen]; omega, hlinks, hb⟩
    · intro b hb
      obtain ⟨hlt, hfull⟩ := h.partly b hb
      exact ⟨by simp; omega, hfull.extend (prefix_append _ _) rfl⟩
    · intro j k' hj hq hb
      rcases getElem?_concat hj with hj | ⟨rfl, -⟩
      · exact (h.done j k' hj (fun hmem => hq (mem_cons_of_mem _ hmem)) hb).extend (prefix_append _ _) rfl
      · exact absurd (mem_cons_self ..) hq
    · intro j hj
      exact h.fresh j (by simp at hj; omega)

variable (record) in
theorem Inv.addLazy (h : Inv out τ ((src, ps) :: busy)) (p : O × K) :
    Inv out (addLazy record src τ p) ((src, ps ++ [p]) :: busy) := by
  obtain ⟨hinv, hmem⟩ := h.enter p.2
  exact hinv.attach hmem

/-- A loop that makes one link after the other. -/
theorem Inv.foldl {add : Table K O Γ G → O × K → Table K O Γ G}
    (hadd : ∀ (τ : Table K O Γ G) (ps : List (O × K)) (p : O × K), Inv out τ ((src, ps) :: busy) →
      Inv out (add τ p) ((src, ps ++ [p]) :: busy)) :
    ∀ (qs : List (O × K)) {ps : List (O × K)} {τ : Table K O Γ G}, Inv out τ ((src, ps) :: busy) →
      Inv out (qs.foldl add τ) ((src, ps ++ qs) :: busy)
  | [], ps, τ, h => by rwa [append_nil]
  | p :: qs, ps, τ, h => by
    have hrest := Inv.foldl hadd qs (hadd τ ps p h)
    rwa [append_assoc] at hrest

/-- All links of a number are made. -/
theorem Inv.finish (h : Inv out τ ((src, out k) :: busy)) (hk : τ.keys[src]? = some k) : Inv out τ busy where
  nodup := h.nodup
  queueNodup := h.queueNodup
  queued := by
    intro j hj
    obtain ⟨hlt, hlinks, hb⟩ := h.queued j hj
    exact ⟨hlt, hlinks, fun hmem => hb (mem_cons_of_mem _ hmem)⟩
  busyNodup := (nodup_cons.1 h.busyNodup).2
  partly := fun b hb => h.partly b (mem_cons_of_mem _ hb)
  done := by
    intro j k' hj hq hb
    by_cases hsrc : j = src
    · subst hsrc
      obtain rfl : k = k' := Option.mem_unique hk hj
      exact (h.partly _ (mem_cons_self ..)).2
    · refine h.done j k' hj hq ?_
      intro hmem
      rcases mem_cons.1 hmem with heq | hmem
      · exact hsrc heq
      · exact hb hmem
  fresh := h.fresh

/-- A new key whose links are being made. -/
theorem Inv.begin (h : Inv out τ busy) (hk : k ∉ τ.keys) :
    Inv out { τ with keys := τ.keys ++ [k] } ((τ.keys.length, []) :: busy) := by
  have hnew : τ.keys.length ∉ busy.map Prod.fst := by
    intro hmem
    obtain ⟨b, hb, heq⟩ := mem_map.1 hmem
    exact Nat.ne_of_lt (h.partly b hb).1 heq
  refine ⟨?_, h.queueNodup, ?_, nodup_cons.2 ⟨hnew, h.busyNodup⟩, ?_, ?_, ?_⟩
  · refine nodup_append.2 ⟨h.nodup, nodup_singleton k, ?_⟩
    intro x hx y hy heq
    exact hk (mem_singleton.1 hy ▸ heq ▸ hx)
  · intro j hj
    obtain ⟨hlt, hlinks, hb⟩ := h.queued j hj
    refine ⟨by simp; omega, hlinks, ?_⟩
    intro hmem
    rcases mem_cons.1 hmem with heq | hmem
    · exact Nat.ne_of_lt hlt heq
    · exact hb hmem
  · intro b hb
    rcases mem_cons.1 hb with rfl | hb
    · exact ⟨by simp, fun p hp => absurd hp not_mem_nil, h.fresh _ (Nat.le_refl _)⟩
    · obtain ⟨hlt, hfull⟩ := h.partly b hb
      exact ⟨by simp; omega, hfull.extend (prefix_append _ _) rfl⟩
  · intro j k' hj hq hb
    rcases getElem?_concat hj with hj | ⟨rfl, -⟩
    · exact (h.done j k' hj hq (fun hmem => hb (mem_cons_of_mem _ hmem))).extend (prefix_append _ _) rfl
    · exact absurd (mem_cons_self ..) hb
  · intro j hj
    exact h.fresh j (by simp at hj; omega)

/-- The number at the head of the queue, its links being made. -/
theorem Inv.pop {s : Nat} {queue : List Nat} (h : Inv out τ []) (hqueue : τ.queue = s :: queue) :
    Inv out { τ with queue := queue } [(s, [])] := by
  have hnodup : (s :: queue).Nodup := hqueue ▸ h.queueNodup
  obtain ⟨hs, hrest⟩ := nodup_cons.1 hnodup
  have hqueued : ∀ j ∈ s :: queue, j < τ.keys.length ∧ τ.links j = [] := by
    intro j hj
    obtain ⟨hlt, hlinks, -⟩ := h.queued j (hqueue ▸ hj)
    exact ⟨hlt, hlinks⟩
  refine ⟨h.nodup, hrest, ?_, nodup_singleton s, ?_, ?_, h.fresh⟩
  · intro j hj
    obtain ⟨hlt, hlinks⟩ := hqueued j (mem_cons_of_mem _ hj)
    refine ⟨hlt, hlinks, ?_⟩
    intro hmem
    obtain rfl : j = s := mem_singleton.1 hmem
    exact hs hj
  · intro b hb
    obtain rfl := mem_singleton.1 hb
    obtain ⟨hlt, hlinks⟩ := hqueued s (mem_cons_self ..)
    exact ⟨hlt, fun p hp => absurd hp not_mem_nil, hlinks⟩
  · intro j k hj hq hb
    refine (h.done j k hj ?_ not_mem_nil).extend prefix_rfl rfl
    intro hmem
    rw [hqueue] at hmem
    rcases mem_cons.1 hmem with rfl | hmem
    · exact hb (mem_cons_self ..)
    · exact hq hmem

/-! ## What grows -/

/-- Keys are added at the end, and a number that begins to wait is a new one. -/
structure Grown (τ τ' : Table K O Γ G) : Prop where
  keys : τ.keys <+: τ'.keys
  count : τ.keys.length + τ'.queue.length ≤ τ'.keys.length + τ.queue.length

variable {τ' τ'' : Table K O Γ G}

section
omit [DecidableEq K]

theorem Grown.refl (τ : Table K O Γ G) : Grown τ τ := ⟨prefix_rfl, Nat.le_refl _⟩

theorem Grown.trans (h : Grown τ τ') (h' : Grown τ' τ'') : Grown τ τ'' where
  keys := h.keys.trans h'.keys
  count := by
    have h1 := h.count
    have h2 := h'.count
    omega

theorem Grown.getElem? (h : Grown τ τ') (hk : τ.keys[j]? = some k) : τ'.keys[j]? = some k := by
  obtain ⟨t, ht⟩ := h.keys
  rw [← ht, getElem?_append_left (List.getElem?_eq_some_iff.1 hk).1, hk]

theorem Grown.foldl {add : Table K O Γ G → O × K → Table K O Γ G} (h : ∀ τ p, Grown τ (add τ p)) :
    ∀ (qs : List (O × K)) (τ : Table K O Γ G), Grown τ (qs.foldl add τ)
  | [], τ => .refl τ
  | p :: qs, τ => (h τ p).trans (Grown.foldl h qs (add τ p))

end

theorem Grown.attach (src : Nat) (p : O × K) : Grown τ (attach record src τ p) := ⟨prefix_rfl, Nat.le_refl _⟩

theorem Grown.enter (τ : Table K O Γ G) (k : K) : Grown τ (enter τ k) := by
  unfold Table.enter
  split
  · exact .refl τ
  · exact ⟨prefix_append _ _, by simp; omega⟩

variable (record) in
theorem Grown.addLazy (src : Nat) (τ : Table K O Γ G) (p : O × K) : Grown τ (addLazy record src τ p) :=
  (Grown.enter τ p.2).trans (.attach src p)

omit [DecidableEq K] in
theorem Grown.begin (τ : Table K O Γ G) (k : K) : Grown τ { τ with keys := τ.keys ++ [k] } :=
  ⟨prefix_append _ _, by simp⟩

variable (out record) in
theorem Grown.enterEager (τ : Table K O Γ G) (k : K) : Grown τ (enterEager out record τ k) := by
  unfold Table.enterEager
  split
  · exact .refl τ
  · exact (Grown.begin τ k).trans (.foldl (Grown.addLazy record _) _ _)

variable (out eager record) in
theorem Grown.addArc (src : Nat) (τ : Table K O Γ G) (p : O × K) : Grown τ (addArc out eager record src τ p) := by
  unfold Table.addArc
  split
  · exact (Grown.enterEager out record τ p.2).trans (.attach src p)
  · exact (Grown.enter τ p.2).trans (.attach src p)

variable (out eager record) in
theorem Grown.process (s : Nat) (τ : Table K O Γ G) : Grown τ (process out eager record s τ) := by
  unfold Table.process
  split
  · exact .refl τ
  · exact .foldl (Grown.addArc out eager record s) _ _

/-! ## The links of a number -/

variable (record) in
theorem Inv.enterEager (h : Inv out τ busy) (k : K) :
    Inv out (enterEager out record τ k) busy ∧ k ∈ (enterEager out record τ k).keys := by
  unfold Table.enterEager
  split
  · exact ⟨h, ‹_›⟩
  · rename_i hk
    have hloop := Inv.foldl (fun _ _ p hinv => hinv.addLazy record p) (out k) (h.begin hk)
    have hgrown := Grown.foldl (Grown.addLazy record τ.keys.length) (out k) { τ with keys := τ.keys ++ [k] }
    have hnumber : ({ τ with keys := τ.keys ++ [k] } : Table K O Γ G).keys[τ.keys.length]? = some k := by simp
    have hkept := hgrown.getElem? hnumber
    exact ⟨hloop.finish hkept, mem_of_getElem? hkept⟩

variable (eager record) in
theorem Inv.addArc (h : Inv out τ ((src, ps) :: busy)) (p : O × K) :
    Inv out (addArc out eager record src τ p) ((src, ps ++ [p]) :: busy) := by
  unfold Table.addArc
  split
  · obtain ⟨hinv, hmem⟩ := h.enterEager record p.2
    exact hinv.attach hmem
  · obtain ⟨hinv, hmem⟩ := h.enter p.2
    exact hinv.attach hmem

theorem Inv.process {s : Nat} {queue : List Nat} (h : Inv out τ []) (hqueue : τ.queue = s :: queue) :
    Inv out (process out eager record s { τ with queue := queue }) [] := by
  have hpop := h.pop hqueue
  obtain ⟨hlt, -⟩ := hpop.partly (s, []) (mem_singleton.2 rfl)
  have hs : ({ τ with queue := queue } : Table K O Γ G).keys[s]? = some τ.keys[s] := getElem?_eq_getElem hlt
  unfold Table.process
  rw [hs]
  have hloop := Inv.foldl (fun _ _ p hinv => hinv.addArc eager record p) (out τ.keys[s]) hpop
  exact hloop.finish ((Grown.foldl (Grown.addArc out eager record s) _ _).getElem? hs)

/-! ## A rule for what every step keeps -/

section Keeps

variable {D : K → Prop} {I : Table K O Γ G → Prop} (hclosed : ∀ k, D k → ∀ p ∈ out k, D p.2)
  (hattach : ∀ src τ k p, D k → p ∈ out k → I τ → I (attach record src τ p))
  (hkeys : ∀ (τ : Table K O Γ G) k queue, D k → I τ → I { τ with keys := τ.keys ++ [k], queue := queue })

variable {k : K}

include hkeys in
theorem enter_keeps (hk : D k) (h : I τ) : I (enter τ k) := by
  unfold Table.enter
  split
  · exact h
  · exact hkeys τ k _ hk h

include hclosed hattach hkeys

theorem addLazy_keeps {p : O × K} (hk : D k) (hp : p ∈ out k) (h : I τ) :
    I (addLazy record src τ p) := hattach src _ k p hk hp (enter_keeps hkeys (hclosed k hk p hp) h)

theorem enterEager_keeps (hk : D k) (h : I τ) : I (enterEager out record τ k) := by
  unfold Table.enterEager
  split
  · exact h
  · refine List.foldlRecOn (out k) _ (hkeys τ k _ hk h) ?_
    intro τ' h' p hp
    exact addLazy_keeps hclosed hattach hkeys hk hp h'

theorem process_keeps {s : Nat} (hD : ∀ k ∈ τ.keys, D k) (h : I τ) : I (process out eager record s τ) := by
  unfold Table.process
  split
  · exact h
  · rename_i k hs
    have hk := hD k (mem_of_getElem? hs)
    refine List.foldlRecOn (out k) _ h ?_
    intro τ' h' p hp
    unfold Table.addArc
    split
    · exact hattach s _ k p hk hp (enterEager_keeps hclosed hattach hkeys (hclosed k hk p hp) h')
    · exact hattach s _ k p hk hp (enter_keeps hkeys (hclosed k hk p hp) h')

/-- What a link and a key keep is kept by a run. -/
theorem run_keeps (hpop : ∀ (τ : Table K O Γ G) queue, I τ → I { τ with queue := queue })
    (hD : ∀ τ, I τ → ∀ k ∈ τ.keys, D k) :
    ∀ {fuel : Nat} {τ τ' : Table K O Γ G}, run out eager record fuel τ = some τ' → I τ → I τ'
  | 0, τ, τ', hrun, h => by
    unfold Table.run at hrun
    split at hrun
    · exact Option.some.inj hrun ▸ h
    · cases hrun
  | fuel + 1, τ, τ', hrun, h => by
    unfold Table.run at hrun
    split at hrun
    · exact Option.some.inj hrun ▸ h
    · rename_i s queue _
      have h' := hpop τ queue h
      exact run_keeps hpop hD hrun (process_keeps hclosed hattach hkeys (hD _ h') h')

end Keeps

/-! ## Whole runs -/

/-- Every key has its number and all of its links. -/
structure Built (out : K → List (O × K)) (first : K) (τ : Table K O Γ G) : Prop where
  nodup : τ.keys.Nodup
  first : τ.keys[0]? = some first
  full : ∀ j k, τ.keys[j]? = some k → Full τ j (out k)

theorem Inv.start (k : K) (store : Γ) : Inv out (start k store : Table K O Γ G) [] where
  nodup := nodup_singleton k
  queueNodup := nodup_singleton 0
  queued := by
    intro j hj
    obtain rfl := mem_singleton.1 hj
    exact ⟨Nat.one_pos, rfl, not_mem_nil⟩
  busyNodup := nodup_nil
  partly := fun b hb => absurd hb not_mem_nil
  done := by
    intro j k' hj hq _
    obtain ⟨hlt, -⟩ := List.getElem?_eq_some_iff.1 hj
    obtain rfl : j = 0 := by simpa [Table.start] using hlt
    exact absurd (mem_singleton.2 rfl) hq
  fresh := fun _ _ => rfl

theorem run_inv : ∀ {fuel : Nat} {τ τ' : Table K O Γ G}, run out eager record fuel τ = some τ' → Inv out τ [] →
    Inv out τ' [] ∧ τ'.queue = [] ∧ τ.keys <+: τ'.keys
  | 0, τ, τ', hrun, h => by
    unfold Table.run at hrun
    split at hrun
    · rename_i hqueue
      obtain rfl := Option.some.inj hrun
      exact ⟨h, hqueue, prefix_rfl⟩
    · cases hrun
  | fuel + 1, τ, τ', hrun, h => by
    unfold Table.run at hrun
    split at hrun
    · rename_i hqueue
      obtain rfl := Option.some.inj hrun
      exact ⟨h, hqueue, prefix_rfl⟩
    · rename_i s queue hqueue
      obtain ⟨hinv, hempty, hprefix⟩ := run_inv hrun (h.process hqueue)
      exact ⟨hinv, hempty, (Grown.process out eager record s { τ with queue := queue }).keys.trans hprefix⟩

variable {store : Γ} {fuel : Nat}

theorem run_built (h : run out eager record fuel (start k store) = some τ) : Built out k τ := by
  obtain ⟨hinv, hqueue, hprefix⟩ := run_inv h (.start k store)
  refine ⟨hinv.nodup, ?_, ?_⟩
  · obtain ⟨t, ht⟩ := hprefix
    rw [← ht]
    rfl
  · intro j k' hj
    exact hinv.done j k' hj (hqueue ▸ not_mem_nil) not_mem_nil

/-- A run that numbers only keys of `U` has no more than `U` to do. -/
theorem run_isSome {U : Finset K} (hU : ∀ k ∈ U, ∀ p ∈ out k, p.2 ∈ U) :
    ∀ {fuel : Nat} {τ : Table K O Γ G}, Inv out τ [] → (∀ k ∈ τ.keys, k ∈ U) →
      U.card + τ.queue.length ≤ fuel + τ.keys.length → (run out eager record fuel τ).isSome
  | 0, τ, h, hin, hfuel => by
    have hcard : τ.keys.length ≤ U.card := by
      rw [← toFinset_card_of_nodup h.nodup]
      refine Finset.card_le_card ?_
      intro k hk
      exact hin k (mem_toFinset.1 hk)
    have hqueue : τ.queue = [] := length_eq_zero_iff.1 (by omega)
    unfold Table.run
    rw [if_pos hqueue]
    rfl
  | fuel + 1, τ, h, hin, hfuel => by
    unfold Table.run
    split
    · rfl
    · rename_i s queue hqueue
      have hcount := (Grown.process out eager record s { τ with queue := queue }).count
      refine run_isSome hU (h.process hqueue) ?_ ?_
      · refine process_keeps (D := (· ∈ U)) (I := fun τ => ∀ k ∈ τ.keys, k ∈ U) hU ?_ ?_ hin hin
        · intro src τ' k p _ _ h'
          exact h'
        · intro τ' k queue' hk h' k' hk'
          rcases mem_append.1 hk' with hk' | hk'
          · exact h' k' hk'
          · exact mem_singleton.1 hk' ▸ hk
      · rw [hqueue, length_cons] at hfuel
        simp only at hcount
        omega

/-- With fuel for every key a run ends. -/
theorem run_spec {U : Finset K} (hU : ∀ k ∈ U, ∀ p ∈ out k, p.2 ∈ U) (hk : k ∈ U) (hfuel : U.card ≤ fuel) :
    ∃ τ : Table K O Γ G, run out eager record fuel (start k store) = some τ ∧ Built out k τ := by
  have hsome : (run out eager record fuel (start k store : Table K O Γ G)).isSome := by
    refine run_isSome hU (.start k store) ?_ ?_
    · intro k' hk'
      exact mem_singleton.1 hk' ▸ hk
    · simp only [Table.start, length_singleton]
      omega
  obtain ⟨τ, hτ⟩ := Option.isSome_iff_exists.1 hsome
  exact ⟨τ, hτ, run_built hτ⟩

/-- Each link has the stamp it got, and the stamp is good for the store. -/
def Stamped (good : Γ → O → G → Prop) (τ : Table K O Γ G) : Prop :=
  ∀ j, Forall₂ (fun l g => good τ.store l.label g) (τ.links j) (τ.stamps j)

theorem Stamped.attach {good : Γ → O → G → Prop} {p : O × K}
    (hgood : good (record τ.store p.1).1 p.1 (record τ.store p.1).2)
    (hkept : ∀ o g, good τ.store o g → good (record τ.store p.1).1 o g) (h : Stamped good τ) :
    Stamped good (attach record src τ p) := by
  intro j
  have hj : Forall₂ (fun l g => good (record τ.store p.1).1 l.label g) (τ.links j) (τ.stamps j) :=
    (h j).imp fun _ _ hlg => hkept _ _ hlg
  by_cases hsrc : j = src
  · subst hsrc
    show Forall₂ _ (update τ.links j _ j) (update τ.stamps j _ j)
    rw [update_self, update_self]
    exact .cons hgood hj
  · show Forall₂ _ (update τ.links src _ j) (update τ.stamps src _ j)
    rw [update_of_ne hsrc, update_of_ne hsrc]
    exact hj

/-- What `record` promises of each stamp, and keeps of all, holds when the run ends. -/
theorem run_stamped (good : Γ → O → G → Prop) (fine : Γ → Prop)
    (hrecord : ∀ γ k p, p ∈ out k → fine γ → fine (record γ p.1).1 ∧ good (record γ p.1).1 p.1 (record γ p.1).2 ∧
      ∀ o g, good γ o g → good (record γ p.1).1 o g)
    (hstore : fine store) (h : run out eager record fuel (start k store) = some τ) :
    fine τ.store ∧ Stamped good τ := by
  refine run_keeps (D := fun _ => True) (I := fun τ => fine τ.store ∧ Stamped good τ) (fun _ _ _ _ => trivial)
    ?_ ?_ ?_ (fun _ _ _ _ => trivial) h ⟨hstore, fun _ => .nil⟩
  · intro src τ' k' p _ hp h'
    obtain ⟨hfine, hgood, hkept⟩ := hrecord τ'.store k' p hp h'.1
    exact ⟨hfine, h'.2.attach hgood hkept⟩
  · intro τ' k' queue _ h'
    exact h'
  · intro τ' queue h'
    exact h'

end Table

end Sbmt.Lib
