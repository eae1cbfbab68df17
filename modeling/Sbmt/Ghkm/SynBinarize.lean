import Sbmt.Ghkm.SynTree

/-!
# Left, right and head outwards binarization (`ghkm/restruct/Restructurer.cpp:11-135`)

A round of the loop puts two neighbours under a new node in their place (`factor_children`), with the head among them
where there is one to be found (`factorOutNodes_eq`).  So the original nodes stay in order (`unbar`), the new ones have
two children, and the original head goes below each of them in turn (`Bars`).
-/

namespace Sbmt.Ghkm.SynTree

open List Option

variable {b : Binarizer} {t t' : SynTree} {a base next : Nat} {d : SynTreeNode} {cs : List SynTree} {head : Option Nat}

theorem nodesOf_eq : ∀ cs : List SynTree, nodesOf cs = cs.flatMap nodes
  | [] => rfl
  | c :: cs => by rw [nodesOf, nodesOf_eq cs, flatMap_cons]

theorem unbarOf_eq : ∀ cs : List SynTree, unbarOf base cs = cs.flatMap (unbar base)
  | [] => rfl
  | c :: cs => by rw [unbarOf, unbarOf_eq cs, flatMap_cons]

theorem topsOf_eq : ∀ cs : List SynTree, topsOf base cs = cs.flatMap (tops base)
  | [] => rfl
  | c :: cs => by rw [topsOf, topsOf_eq cs, flatMap_cons]

theorem forgetHeadsOf_eq : ∀ cs : List SynTree, forgetHeadsOf cs = cs.map forgetHeads
  | [] => rfl
  | c :: cs => by rw [forgetHeadsOf, forgetHeadsOf_eq cs, map_cons]

theorem markHeadsOf_eq : ∀ cs : List SynTree, markHeadsOf cs = cs.map markHeads
  | [] => rfl
  | c :: cs => by rw [markHeadsOf, markHeadsOf_eq cs, map_cons]

theorem mem_nodes {s : SynTree} : s ∈ (node a d cs).nodes ↔ s = node a d cs ∨ ∃ c ∈ cs, s ∈ c.nodes := by
  rw [nodes, nodesOf_eq, mem_cons, mem_flatMap]

theorem self_mem_nodes (t : SynTree) : t ∈ t.nodes := by
  cases t
  exact mem_nodes.2 (.inl rfl)

/-! ## The siblings that are factored out -/

theorem scanHeads_skip (ret : List Nat × Option (Option Nat)) : ∀ (l rest : List SynTree) (prev : Option SynTree),
    (∀ c ∈ l, head ≠ some c.addr) → scanHeads head prev (l ++ rest) ret = scanHeads head (l.getLast?.or prev) rest ret
  | [], _, _, _ => rfl
  | c :: l, rest, prev, h => by
    have hskip := scanHeads_skip ret l rest (some c) fun c' hc' => h c' (mem_cons_of_mem c hc')
    rw [cons_append, scanHeads.eq_def]
    dsimp only
    rw [if_neg (h c mem_cons_self), hskip, getLast?_cons]
    cases l.getLast? with
    | none => rfl
    | some z => rfl

theorem scanHeads_none (ret : List Nat × Option (Option Nat)) (l : List SynTree) (prev : Option SynTree)
    (h : ∀ c ∈ l, head ≠ some c.addr) : scanHeads head prev l ret = ret := by
  have hskip := scanHeads_skip ret l [] prev h
  rw [append_nil] at hskip
  exact hskip.trans rfl

/-- Two neighbours are factored out, with the head where heads matter. -/
theorem factorOutNodes_eq (hnodup : (cs.map addr).Nodup) (hlen : 2 < cs.length)
    (hhead : b = .headOutwards → ∃ c ∈ cs, head = some c.addr) :
    ∃ pre x y post, cs = pre ++ x :: y :: post ∧
      factorOutNodes head cs b = some ⟨[x.addr, y.addr], post.head?.map addr⟩ ∧
      (b = .headOutwards → head = some x.addr ∨ head = some y.addr) := by
  cases b with
  | leftBranch =>
    have hrev : 2 < cs.reverse.length := by rwa [length_reverse]
    cases hr : cs.reverse with
    | nil => simp [hr] at hrev
    | cons y l =>
      cases l with
      | nil => simp [hr] at hrev
      | cons x l =>
        refine ⟨l.reverse, x, y, [], ?_, ?_, fun h => by cases h⟩
        · rw [← reverse_reverse cs, hr]
          simp
        · rw [factorOutNodes, hr]
          rfl
  | rightBranch =>
    match cs, hlen with
    | x :: y :: post, _ => exact ⟨[], x, y, post, rfl, rfl, fun h => by cases h⟩
  | headOutwards =>
    obtain ⟨hd, hmem, rfl⟩ := hhead rfl
    obtain ⟨pre, post, rfl⟩ := append_of_mem hmem
    rw [map_append] at hnodup
    have hpre : ∀ c ∈ pre, some hd.addr ≠ some c.addr := by
      intro c hc heq
      exact disjoint_of_nodup_append hnodup (mem_map_of_mem hc) (Option.some.inj heq ▸ mem_cons_self)
    have hpost : ∀ c ∈ post, some hd.addr ≠ some c.addr := by
      intro c hc heq
      have hfresh := (nodup_cons.1 (nodup_append.1 hnodup).2.1).1
      exact hfresh (Option.some.inj heq ▸ mem_map_of_mem hc)
    have hscan := scanHeads_skip ([], none) pre (hd :: post) none hpre
    cases post with
    | nil =>
      -- the head comes last
      cases hlast : pre.getLast? with
      | none =>
        rw [getLast?_eq_none_iff.1 hlast] at hlen
        simp at hlen
      | some x =>
        obtain ⟨pre', rfl⟩ := getLast?_eq_some_iff.1 hlast
        refine ⟨pre', x, hd, [], by simp, ?_, fun _ => .inr rfl⟩
        rw [hlast] at hscan
        rw [factorOutNodes, hscan, scanHeads, if_pos rfl]
        rfl
    | cons it1 rest =>
      refine ⟨pre, hd, it1, rest, rfl, ?_, fun _ => .inl rfl⟩
      rw [factorOutNodes, hscan, scanHeads, if_pos rfl, scanHeads_none _ _ _ hpost]
      rfl

/-! ## Putting them under a new node -/

theorem insertBefore_eq {newit x y : SynTree} {pre post : List SynTree}
    (hnodup : ((pre ++ x :: y :: post).map addr).Nodup) :
    insertBefore newit (pre ++ x :: y :: post) (post.head?.map addr) = pre ++ x :: y :: newit :: post := by
  cases post with
  | nil => simp [insertBefore]
  | cons z post =>
    have hsplit : pre ++ x :: y :: z :: post = (pre ++ [x, y]) ++ z :: post := by simp
    rw [hsplit] at hnodup ⊢
    rw [map_append] at hnodup
    have hbefore : ∀ c ∈ pre ++ [x, y], decide (c.addr ≠ z.addr) = true := by
      intro c hc
      refine decide_eq_true fun heq => ?_
      exact disjoint_of_nodup_append hnodup (mem_map_of_mem hc) (heq ▸ mem_cons_self)
    show (_ : List SynTree).takeWhile (fun c => decide (c.addr ≠ z.addr)) ++ newit :: _ = _
    rw [takeWhile_append_of_pos hbefore, dropWhile_append_of_pos hbefore]
    simp

/-- One sibling moves. -/
theorem reparent_eq (x newit : SynTree) (pre mid post : List SynTree)
    (hnodup : ((pre ++ x :: (mid ++ newit :: post)).map addr).Nodup) :
    reparent newit.addr (pre ++ x :: (mid ++ newit :: post)) x.addr = pre ++ (mid ++ push x newit :: post) := by
  have hpre : ∀ c ∈ pre, c.addr ≠ x.addr ∧ c.addr ≠ newit.addr := by
    intro c hc
    rw [map_append] at hnodup
    have hdisj := fun a (ha : a ∈ (x :: (mid ++ newit :: post)).map addr) =>
      (disjoint_of_nodup_append hnodup (mem_map_of_mem hc) : c.addr ∈ _ → False)
    constructor
    · intro heq
      exact hdisj x.addr (by simp) (by rw [heq]; simp)
    · intro heq
      exact hdisj x.addr (by simp) (by rw [heq]; simp)
  have hrest := (nodup_append.1 (by rwa [map_append] at hnodup)).2.1
  rw [map_cons, nodup_cons] at hrest
  have hmidpost : ∀ c ∈ mid ++ newit :: post, c.addr ≠ x.addr := fun c hc heq =>
    hrest.1 (heq ▸ mem_map_of_mem hc)
  have hnew := hrest.2
  rw [map_append, map_cons] at hnew
  have hmid : ∀ c ∈ mid, c.addr ≠ newit.addr := fun c hc heq =>
    disjoint_of_nodup_append hnew (mem_map_of_mem hc) (heq ▸ mem_cons_self)
  have hpost : ∀ c ∈ post, c.addr ≠ newit.addr := fun c hc heq =>
    (nodup_cons.1 (nodup_append.1 hnew).2.1).1 (heq ▸ mem_map_of_mem hc)
  have hfind : (pre ++ x :: (mid ++ newit :: post)).find? (fun c => decide (c.addr = x.addr)) = some x := by
    rw [find?_eq_some_iff_append]
    refine ⟨decide_eq_true rfl, pre, _, rfl, fun c hc => ?_⟩
    rw [decide_eq_false (hpre c hc).1]
    rfl
  have hkeep : ∀ l : List SynTree, (∀ c ∈ l, c.addr ≠ newit.addr) →
      l.map (fun c => if c.addr = newit.addr then push x c else c) = l := by
    intro l hl
    refine (map_congr_left fun c hc => if_neg (hl c hc)).trans (map_id' l)
  rw [reparent, hfind]
  dsimp only
  rw [filter_append, filter_cons_of_neg (by simp),
    filter_eq_self.2 fun c hc => decide_eq_true (hpre c hc).1,
    filter_eq_self.2 fun c hc => decide_eq_true (hmidpost c hc),
    map_append, map_append, map_cons, if_pos rfl,
    hkeep pre fun c hc => (hpre c hc).2, hkeep mid hmid, hkeep post hpost]

/-- The two siblings and the new node above them. -/
theorem factor_children {x y : SynTree} {pre post : List SynTree} (hnodup : ((pre ++ x :: y :: post).map addr).Nodup)
    (hlt : ∀ c ∈ pre ++ x :: y :: post, c.addr < next) :
    [x.addr, y.addr].foldl (reparent next)
      (insertBefore (node next d []) (pre ++ x :: y :: post) (post.head?.map addr)) = pre ++ node next d [x, y] :: post := by
  have hfresh : ((pre ++ x :: y :: node next d [] :: post).map addr).Nodup := by
    have hperm : (pre ++ x :: y :: node next d [] :: post).Perm (node next d [] :: (pre ++ x :: y :: post)) := by
      have hsplit : pre ++ x :: y :: node next d [] :: post = (pre ++ [x, y]) ++ node next d [] :: post := by simp
      have hsplit' : pre ++ x :: y :: post = (pre ++ [x, y]) ++ post := by simp
      rw [hsplit, hsplit']
      exact perm_middle
    rw [(hperm.map addr).nodup_iff, map_cons, nodup_cons]
    refine ⟨fun hmem => ?_, hnodup⟩
    obtain ⟨c, hc, heq⟩ := mem_map.1 hmem
    have := hlt c hc
    rw [heq] at this
    exact Nat.lt_irrefl next this
  rw [insertBefore_eq hnodup]
  have hfirst := reparent_eq x (node next d []) pre [y] post hfresh
  have hsub : ((pre ++ y :: node next d [x] :: post).map addr).Nodup := by
    refine hfresh.sublist ?_
    simp only [map_append, map_cons]
    exact (Sublist.refl _).append (sublist_cons_self _ _)
  have hsecond := reparent_eq y (node next d [x]) pre [] post hsub
  exact (congrArg (fun l => reparent next l y.addr) hfirst).trans hsecond

/-! ## A round of the loop -/

/-- The nodes below `base`. -/
def olds (base : Nat) (t : SynTree) : List SynTree := t.nodes.filter fun s => s.addr < base

theorem olds_node : olds base (node a d cs) = (if a < base then [node a d cs] else []) ++ cs.flatMap (olds base) := by
  have haddr : (node a d cs).addr = a := rfl
  rw [olds, nodes, nodesOf_eq, filter_cons, filter_flatMap, haddr]
  by_cases ha : a < base
  · rw [if_pos ha, if_pos (decide_eq_true ha)]
    rfl
  · rw [if_neg ha, if_neg fun h => ha (of_decide_eq_true h)]
    rfl

theorem olds_pos (hbase : base ≤ a) (hlen : cs.length = 2) (hcs : ∀ c ∈ cs, 0 < (olds base c).length) :
    ∀ c ∈ cs, (olds base c).length < (olds base (node a d cs)).length := by
  match cs, hlen with
  | [x, y], _ =>
    have hx := hcs x (by simp)
    have hy := hcs y (by simp)
    have hsum : (olds base (node a d [x, y])).length = (olds base x).length + (olds base y).length := by
      rw [olds_node, if_neg (Nat.not_lt_of_le hbase)]
      simp
    intro c hc
    rcases mem_cons.1 hc with rfl | hc
    · omega
    · rw [mem_singleton.1 hc]
      omega

/-- What the algorithm relies on at a node, where new ones are from `base` on, all below `next`. -/
structure Local (b : Binarizer) (base next : Nat) (s : SynTree) : Prop where
  lt : s.addr < next
  nodup : (s.children.map addr).Nodup
  old : s.addr < base → ∀ c ∈ s.children, c.addr < base
  bar : base ≤ s.addr → s.children.length = 2
  head : b = .headOutwards → 2 < s.children.length → ∃ c ∈ s.children, s.data.head = some c.addr

def Ready (b : Binarizer) (base next : Nat) (t : SynTree) : Prop := ∀ s ∈ t.nodes, Local b base next s

theorem Ready.mono {next' : Nat} (hle : next ≤ next') (h : Ready b base next t) : Ready b base next' t := fun s hs =>
  { h s hs with lt := (h s hs).lt.trans_le hle }

theorem ready_node : Ready b base next (node a d cs) ↔
    Local b base next (node a d cs) ∧ ∀ c ∈ cs, Ready b base next c := by
  constructor
  · exact fun h => ⟨h _ (self_mem_nodes _), fun c hc s hs => h s (mem_nodes.2 (.inr ⟨c, hc, hs⟩))⟩
  · rintro ⟨hroot, hcs⟩ s hs
    rcases mem_nodes.1 hs with rfl | ⟨c, hc, hs⟩
    · exact hroot
    · exact hcs c hc s hs

structure Siblings (b : Binarizer) (base next : Nat) (head : Option Nat) (cs : List SynTree) : Prop where
  nodup : (cs.map addr).Nodup
  ready : ∀ c ∈ cs, Ready b base next c
  head : b = .headOutwards → 2 < cs.length → ∃ c ∈ cs, head = some c.addr

theorem Ready.siblings (h : Ready b base next (node a d cs)) : Siblings b base next d.head cs :=
  ⟨(h _ (self_mem_nodes _)).nodup, (ready_node.1 h).2, (h _ (self_mem_nodes _)).head⟩

theorem Siblings.addr_lt (h : Siblings b base next head cs) : ∀ c ∈ cs, c.addr < next := fun c hc =>
  (h.ready c hc c (self_mem_nodes c)).lt

/-- The new nodes among siblings have this label, and the original head `h` is under them and under the head. -/
structure Headed (base : Nat) (label : String) (h : Option Nat) (head : Option Nat) (cs : List SynTree) : Prop where
  bars : ∀ c ∈ cs, Bars base label h c
  under : ∀ h₀, h = some h₀ → ∃ c ∈ cs, head = some c.addr ∧ h₀ ∈ tops base c

/-- The same original nodes in the same order. -/
structure Regrouped (base : Nat) (cs cs' : List SynTree) : Prop where
  olds_eq : cs'.flatMap (olds base) = cs.flatMap (olds base)
  unbar_eq : cs'.flatMap (unbar base) = cs.flatMap (unbar base)

theorem tops_old (h : t.addr < base) : tops base t = [t.addr] := by
  cases t
  exact if_pos h

theorem tops_bar (hbase : base ≤ a) : tops base (node a d cs) = topsOf base cs := by
  rw [tops, if_neg (Nat.not_lt_of_le hbase)]

section Round

variable {x y : SynTree} {pre post : List SynTree} {label : String} {h : Option Nat}

variable (d x y pre post) in
theorem round_regrouped (hbase : base ≤ next) : Regrouped base (pre ++ x :: y :: post) (pre ++ node next d [x, y] :: post) := by
  have hnot := Nat.not_lt_of_le hbase
  constructor
  · simp only [flatMap_append, flatMap_cons, olds_node, if_neg hnot]
    simp
  · simp only [flatMap_append, flatMap_cons, unbar, if_neg hnot, unbarOf]
    simp

theorem Siblings.round (hsib : Siblings b base next head (pre ++ x :: y :: post)) (hbase : base ≤ next) :
    Siblings b base (next + 1) (some next) (pre ++ node next d [x, y] :: post) := by
  have hready := fun c hc => (hsib.ready c hc).mono (Nat.le_succ next)
  have hx := hready x (by simp)
  have hy := hready y (by simp)
  have hxy : x.addr ≠ y.addr := by
    have hnodup := hsib.nodup
    rw [map_append] at hnodup
    exact fun heq => (nodup_cons.1 (nodup_append.1 hnodup).2.1).1 (heq ▸ mem_cons_self)
  refine ⟨?_, ?_, fun _ _ => ⟨node next d [x, y], by simp, rfl⟩⟩
  · have hperm : (pre ++ node next d [x, y] :: post).Perm (node next d [x, y] :: (pre ++ post)) := perm_middle
    rw [(hperm.map addr).nodup_iff, map_cons, nodup_cons]
    constructor
    · intro hmem
      obtain ⟨c, hc, heq⟩ := mem_map.1 hmem
      have hlt := hsib.addr_lt c (by
        rcases mem_append.1 hc with hc | hc
        · simp [hc]
        · simp [hc])
      rw [heq] at hlt
      exact Nat.lt_irrefl next hlt
    · refine hsib.nodup.sublist (Sublist.map addr ?_)
      exact (Sublist.refl pre).append ((sublist_cons_self y post).cons x)
  · intro c hc
    rcases mem_append.1 hc with hc | hc
    · exact hready c (by simp [hc])
    · rcases mem_cons.1 hc with rfl | hc
      · refine ready_node.2 ⟨⟨Nat.lt_succ_self next, ?_, fun hlt => absurd hlt (Nat.not_lt_of_le hbase), fun _ => rfl,
          fun _ hlen => absurd hlen (Nat.lt_irrefl 2)⟩, ?_⟩
        · show ([x, y].map addr).Nodup
          simpa using hxy
        · intro c hc
          rcases mem_cons.1 hc with rfl | hc
          · exact hx
          · rw [mem_singleton.1 hc]
            exact hy
      · exact hready c (by simp [hc])

/-- The new node has the head below it, and is the head from then on. -/
theorem Headed.round (hh : Headed base label h head (pre ++ x :: y :: post))
    (hnodup : ((pre ++ x :: y :: post).map addr).Nodup) (hbase : base ≤ next) (hlabel : d.label = label)
    (hpick : ∀ h0, h = some h0 → head = some x.addr ∨ head = some y.addr) :
    Headed base label h (some next) (pre ++ node next d [x, y] :: post) := by
  have hunder : ∀ h0, h = some h0 → h0 ∈ topsOf base [x, y] := by
    intro h0 hh0
    obtain ⟨c, hc, hhead, hmem⟩ := hh.under h0 hh0
    have hinj := inj_on_of_nodup_map hnodup
    rw [topsOf_eq, mem_flatMap]
    rcases hpick h0 hh0 with hx | hy
    · obtain rfl := hinj hc (by simp) (mem_unique hhead hx)
      exact ⟨c, by simp, hmem⟩
    · obtain rfl := hinj hc (by simp) (mem_unique hhead hy)
      exact ⟨c, by simp, hmem⟩
  constructor
  · intro c hc
    rcases mem_append.1 hc with hc | hc
    · exact hh.bars c (by simp [hc])
    · rcases mem_cons.1 hc with rfl | hc
      · refine .bar hbase hlabel hunder fun c hc => hh.bars c ?_
        rcases mem_cons.1 hc with rfl | hc
        · simp
        · rw [mem_singleton.1 hc]
          simp
      · exact hh.bars c (by simp [hc])
  · intro h0 hh0
    refine ⟨node next d [x, y], by simp, rfl, ?_⟩
    rw [tops_bar hbase]
    exact hunder h0 hh0

end Round

/-- What the loop leaves of a node and its children. -/
structure Looped (b : Binarizer) (base : Nat) (d : SynTreeNode) (next : Nat) (cs : List SynTree)
    (o : SynTreeNode × List SynTree × Nat) : Prop where
  data_eq : { o.1 with head := none } = { d with head := none }
  next_le : next ≤ o.2.2
  length_le : o.2.1.length ≤ 2
  same : cs.length ≤ 2 → o.2.1 = cs
  siblings : Siblings b base o.2.2 o.1.head o.2.1
  regrouped : Regrouped base cs o.2.1
  headed : ∀ h, (∀ h₀, h = some h₀ → b = .headOutwards) → Headed base (d.label ++ "-BAR") h d.head cs →
    Headed base (d.label ++ "-BAR") h o.1.head o.2.1

theorem factorLoop_spec : ∀ {fuel : Nat} {d : SynTreeNode} {next : Nat} {cs : List SynTree}, base ≤ next →
    Siblings b base next d.head cs → 0 < fuel → cs.length ≤ fuel →
    ∃ o, factorLoop b fuel d next cs = some o ∧ Looped b base d next cs o
  | 0, _, _, _, _, _, hpos, _ => absurd hpos (Nat.lt_irrefl 0)
  | fuel + 1, d, next, cs, hbase, hsib, _, hlen => by
    rw [factorLoop]
    by_cases htwo : cs.length ≤ 2
    · rw [if_pos htwo]
      exact ⟨_, rfl, rfl, le_rfl, htwo, fun _ => rfl, hsib, ⟨rfl, rfl⟩, fun _ _ hh => hh⟩
    · rw [if_neg htwo]
      obtain ⟨pre, x, y, post, rfl, hfactor, hpick⟩ :=
        factorOutNodes_eq hsib.nodup (Nat.lt_of_not_le htwo) fun hb => hsib.head hb (Nat.lt_of_not_le htwo)
      rw [hfactor, bind_some]
      dsimp only
      rw [factor_children hsib.nodup hsib.addr_lt]
      have hround := hsib.round (d := ⟨d.label ++ "-BAR", 0, none⟩) hbase
      have hlen' : (pre ++ node next ⟨d.label ++ "-BAR", 0, none⟩ [x, y] :: post).length ≤ fuel := by
        simp only [length_append, length_cons] at hlen ⊢
        omega
      have hpos : 0 < fuel := by
        omega
      obtain ⟨o, ho, hlooped⟩ := factorLoop_spec (d := { d with head := some next }) (hbase.trans (Nat.le_succ next))
        hround hpos hlen'
      refine ⟨o, ho, hlooped.data_eq, (Nat.le_succ next).trans hlooped.next_le, hlooped.length_le,
        fun h => absurd h htwo, hlooped.siblings, ?_, fun h hb hh => hlooped.headed h hb ?_⟩
      · have hregrouped := round_regrouped ⟨d.label ++ "-BAR", 0, none⟩ x y pre post hbase
        exact ⟨hlooped.regrouped.olds_eq.trans hregrouped.olds_eq, hlooped.regrouped.unbar_eq.trans hregrouped.unbar_eq⟩
      · exact hh.round hsib.nodup hbase rfl fun h0 hh0 => hpick (hb h0 hh0)

/-! ## The recursion -/

/-- The head below which new nodes are to be counted, where heads matter. -/
def HeadOf (b : Binarizer) (s : SynTree) (h : Option Nat) : Prop :=
  ∀ h₀, h = some h₀ → b = .headOutwards ∧ s.data.head = some h₀ ∧ h₀ ∈ s.children.map addr

/-- What binarizing makes of a tree that may have new nodes at its top. -/
structure Restructed (b : Binarizer) (base : Nat) (t t' : SynTree) : Prop where
  addr_eq : t'.addr = t.addr
  tops_eq : t'.tops base = t.tops base
  unbar_eq : t'.unbar base = t.unbar base
  bars : ∀ label h, Bars base label h t → Bars base label h t'
  children_le : ∀ s ∈ t'.nodes, s.children.length ≤ 2
  each : ∀ s' ∈ t'.nodes, s'.addr < base → ∃ s ∈ olds base t, s.addr = s'.addr ∧
    ∀ h, HeadOf b s h → ∀ c ∈ s'.children, Bars base (s.data.label ++ "-BAR") h c

theorem Bars.children {label : String} {h : Option Nat} (hbars : Bars base label h (node a d cs)) (ha : base ≤ a) :
    d.label = label ∧ (∀ h0, h = some h0 → h0 ∈ topsOf base cs) ∧ ∀ c ∈ cs, Bars base label h c := by
  cases hbars with
  | old hlt => exact absurd hlt (Nat.not_lt_of_le ha)
  | bar _ hlabel hhead hcs => exact ⟨hlabel, hhead, hcs⟩

theorem restructAll_spec {f : Nat → SynTree → Option (SynTree × Nat)}
    (hf : ∀ t next, base ≤ next → Ready b base next t → (olds base t).length < a →
      ∃ t' next', f next t = some (t', next') ∧ next ≤ next' ∧ Restructed b base t t') :
    ∀ (cs : List SynTree) (next : Nat), base ≤ next → (∀ c ∈ cs, Ready b base next c) →
      (∀ c ∈ cs, (olds base c).length < a) →
      ∃ cs' next', restructAll f next cs = some (cs', next') ∧ next ≤ next' ∧ Forall₂ (Restructed b base) cs cs'
  | [], next, _, _, _ => ⟨[], next, rfl, le_rfl, .nil⟩
  | c :: cs, next, hbase, hready, hlt => by
    obtain ⟨c', next1, hc, hle1, hres⟩ := hf c next hbase (hready c mem_cons_self) (hlt c mem_cons_self)
    obtain ⟨cs', next2, hcs, hle2, hall⟩ := restructAll_spec hf cs next1 (hbase.trans hle1)
      (fun c' hc' => (hready c' (mem_cons_of_mem c hc')).mono hle1) fun c' hc' => hlt c' (mem_cons_of_mem c hc')
    refine ⟨c' :: cs', next2, ?_, hle1.trans hle2, .cons hres hall⟩
    rw [restructAll, hc, bind_some, hcs]
    rfl

section

variable {cs' cs2 : List SynTree} {d' : SynTreeNode}

theorem Restructed.of_mem_right (hall : Forall₂ (Restructed b base) cs cs') {c' : SynTree} (hc' : c' ∈ cs') :
    ∃ c ∈ cs, Restructed b base c c' := by
  induction hall with
  | nil => cases hc'
  | @cons e e' es es' he _ ih =>
    rcases mem_cons.1 hc' with rfl | hc'
    · exact ⟨e, mem_cons_self, he⟩
    · obtain ⟨c, hc, hres⟩ := ih hc'
      exact ⟨c, mem_cons_of_mem e hc, hres⟩

theorem Restructed.flatMap_eq {β : Type} {f : SynTree → List β} (hf : ∀ c c', Restructed b base c c' → f c' = f c)
    (hall : Forall₂ (Restructed b base) cs cs') : cs'.flatMap f = cs.flatMap f := by
  induction hall with
  | nil => rfl
  | cons he _ ih => rw [flatMap_cons, flatMap_cons, hf _ _ he, ih]

/-- The node, its siblings regrouped by the loop and each of them binarized. -/
theorem Restructed.node {r : Nat} (hlooped : Looped b base d next cs (d', cs2, a))
    (hready : Ready b base next (.node r d cs)) (hall : Forall₂ (Restructed b base) cs2 cs') :
    Restructed b base (.node r d cs) (.node r d' cs') := by
  have hlocal := hready _ (self_mem_nodes _)
  have htops : base ≤ r → cs2 = cs := fun hr => hlooped.same (hlocal.bar hr).le
  have hdata : { d' with head := none } = { d with head := none } := hlooped.data_eq
  refine ⟨rfl, ?_, ?_, ?_, ?_, ?_⟩
  · by_cases hr : r < base
    · rw [tops, tops, if_pos hr, if_pos hr]
    · rw [tops, tops, if_neg hr, if_neg hr, topsOf_eq, topsOf_eq, flatMap_eq (fun _ _ h => h.tops_eq) hall,
        htops (Nat.le_of_not_lt hr)]
  · have hkids : unbarOf base cs' = unbarOf base cs := by
      rw [unbarOf_eq, unbarOf_eq, flatMap_eq (fun _ _ h => h.unbar_eq) hall]
      exact hlooped.regrouped.unbar_eq
    rw [unbar, unbar, hkids, hdata]
  · intro label h hbars
    by_cases hr : r < base
    · exact .old hr
    · obtain ⟨hlabel, hhead, hcs⟩ := hbars.children (Nat.le_of_not_lt hr)
      have hsame := htops (Nat.le_of_not_lt hr)
      subst hsame
      refine .bar (Nat.le_of_not_lt hr) ((congrArg SynTreeNode.label hdata).trans hlabel) ?_ ?_
      · intro h0 hh0
        rw [topsOf_eq, flatMap_eq (fun _ _ h => h.tops_eq) hall, ← topsOf_eq]
        exact hhead h0 hh0
      · intro c' hc'
        obtain ⟨c, hc, hres⟩ := of_mem_right hall hc'
        exact hres.bars label h (hcs c hc)
  · intro s hs
    rcases mem_nodes.1 hs with rfl | ⟨c', hc', hs⟩
    · show cs'.length ≤ 2
      rw [← hall.length_eq]
      exact hlooped.length_le
    · obtain ⟨c, -, hres⟩ := of_mem_right hall hc'
      exact hres.children_le s hs
  · intro s' hs' hlt
    rcases mem_nodes.1 hs' with rfl | ⟨c', hc', hs'⟩
    · have hlt : r < base := hlt
      refine ⟨.node r d cs, ?_, rfl, ?_⟩
      · rw [olds_node, if_pos hlt]
        exact mem_append_left _ (mem_singleton_self _)
      · intro h hh c' hc'
        obtain ⟨c, hc, hres⟩ := of_mem_right hall hc'
        have hold : ∀ c ∈ cs, c.addr < base := hlocal.old hlt
        have hstart : Headed base (d.label ++ "-BAR") h d.head cs := by
          refine ⟨fun c hc => .old (hold c hc), fun h0 hh0 => ?_⟩
          obtain ⟨-, hhead, hmem⟩ := hh h0 hh0
          obtain ⟨hd, hhd, rfl⟩ := mem_map.1 hmem
          refine ⟨hd, hhd, hhead, ?_⟩
          rw [tops_old (hold hd hhd)]
          exact mem_singleton_self _
        exact hres.bars _ _ ((hlooped.headed h (fun h0 hh0 => (hh h0 hh0).1) hstart).bars c hc)
    · obtain ⟨c, hc, hres⟩ := of_mem_right hall hc'
      obtain ⟨s, hs, haddr, hbars⟩ := hres.each s' hs' hlt
      refine ⟨s, ?_, haddr, hbars⟩
      rw [olds_node, ← hlooped.regrouped.olds_eq]
      exact mem_append_right _ (mem_flatMap.2 ⟨c, hc, hs⟩)

end

/-- New nodes are not leaves. -/
theorem Ready.olds_pos (h : Ready b base next t) : 0 < (olds base t).length := by
  induction t using induct with
  | h a d cs ih =>
    rw [olds_node, length_append]
    by_cases ha : a < base
    · rw [if_pos ha, length_singleton]
      omega
    · obtain ⟨hroot, hcs⟩ := ready_node.1 h
      have htwo : cs.length = 2 := hroot.bar (Nat.le_of_not_lt ha)
      match cs, htwo with
      | [x, y], _ =>
        have hx := ih x mem_cons_self (hcs x mem_cons_self)
        rw [flatMap_cons, length_append]
        omega

theorem length_le_olds : ∀ {cs : List SynTree}, (∀ c ∈ cs, 0 < (olds base c).length) →
    cs.length ≤ (cs.flatMap (olds base)).length
  | [], _ => le_rfl
  | c :: cs, h => by
    have hc := h c mem_cons_self
    have hcs := length_le_olds fun c' hc' => h c' (mem_cons_of_mem c hc')
    rw [flatMap_cons, length_append, length_cons]
    omega

theorem restruct_spec : ∀ (fuel : Nat) (t : SynTree) (next : Nat), base ≤ next → Ready b base next t →
    (olds base t).length < fuel →
    ∃ t' next', restruct b fuel next t = some (t', next') ∧ next ≤ next' ∧ Restructed b base t t'
  | 0, _, _, _, _, hfuel => absurd hfuel (Nat.not_lt_zero _)
  | fuel + 1, .node r d cs, next, hbase, hready, hfuel => by
    obtain ⟨hroot, hcs⟩ := ready_node.1 hready
    have hpos : ∀ c ∈ cs, 0 < (olds base c).length := fun c hc => (hcs c hc).olds_pos
    have hlen := length_le_olds hpos
    have hroom : 0 < fuel ∧ cs.length ≤ fuel := by
      have := hready.olds_pos
      rw [olds_node, length_append] at this hfuel
      omega
    obtain ⟨⟨d', cs2, next1⟩, hloop, hlooped⟩ := factorLoop_spec hbase hready.siblings hroom.1 hroom.2
    have hsmall : ∀ c ∈ cs2, (olds base c).length < fuel := by
      by_cases hr : r < base
      · intro c hc
        have hle := (sublist_flatten_of_mem (mem_map_of_mem (f := olds base) hc)).length_le
        rw [← flatMap_def] at hle
        have hsame : (cs2.flatMap (olds base)).length = _ := congrArg List.length hlooped.regrouped.olds_eq
        rw [olds_node, if_pos hr, length_append, length_singleton] at hfuel
        omega
      · have htwo : cs.length = 2 := hroot.bar (Nat.le_of_not_lt hr)
        obtain rfl : cs2 = cs := hlooped.same htwo.le
        intro c hc
        have := SynTree.olds_pos (d := d) (Nat.le_of_not_lt hr) htwo hpos c hc
        omega
    obtain ⟨cs', next2, hall, hle, hres⟩ := restructAll_spec (restruct_spec fuel) cs2 next1 (hbase.trans hlooped.next_le)
      hlooped.siblings.ready hsmall
    refine ⟨.node r d' cs', next2, ?_, hlooped.next_le.trans hle, .node hlooped hready hres⟩
    rw [restruct, hloop, bind_some]
    rw [hall]
    rfl

/-! ## A parse -/

theorem children_subset {s c : SynTree} (hs : s ∈ t.nodes) (hc : c ∈ s.children) : c ∈ t.nodes := by
  induction t using induct with
  | h a d cs ih =>
    rcases mem_nodes.1 hs with rfl | ⟨e, he, hs⟩
    · exact mem_nodes.2 (.inr ⟨c, hc, self_mem_nodes c⟩)
    · exact mem_nodes.2 (.inr ⟨e, he, ih e he hs⟩)

theorem children_nodup {s : SynTree} (hdistinct : (t.nodes.map addr).Nodup) (hs : s ∈ t.nodes) :
    (s.children.map addr).Nodup := by
  induction t using induct with
  | h a d cs ih =>
    rw [nodes, nodesOf_eq] at hdistinct
    have hcs := (nodup_cons.1 hdistinct).2
    rcases mem_nodes.1 hs with rfl | ⟨c, hc, hs⟩
    · refine hcs.sublist ?_
      show (cs.map addr).Sublist _
      clear hcs hdistinct hs ih
      induction cs with
      | nil => exact .slnil
      | cons c cs ih =>
        cases c
        rw [flatMap_cons, nodes, map_cons, cons_append, map_cons, map_append]
        exact (ih.trans (sublist_append_right _ _)).cons_cons _
    · refine ih c hc (hcs.sublist (Sublist.map addr ?_)) hs
      exact sublist_flatten_of_mem (mem_map_of_mem hc)

theorem markHeads_addr : t.markHeads.addr = t.addr := by
  cases t with
  | node a d cs =>
    cases cs with
    | nil => rfl
    | cons c cs => rfl

/-- Every node with children has one of them for its head. -/
theorem markHeads_head {s : SynTree} (hs : s ∈ t.markHeads.nodes) (hlen : 0 < s.children.length) :
    ∃ c ∈ s.children, s.data.head = some c.addr := by
  induction t using induct with
  | h a d cs ih =>
    cases cs with
    | nil =>
      rcases mem_nodes.1 hs with rfl | ⟨c, hc, -⟩
      · cases hlen
      · cases hc
    | cons c cs =>
      have hkids : c.markHeads :: markHeadsOf cs = (c :: cs).map markHeads := by rw [markHeadsOf_eq, map_cons]
      rw [markHeads, hkids] at hs
      rcases mem_nodes.1 hs with rfl | ⟨e, he, hs⟩
      · show ∃ e ∈ (c :: cs).map markHeads, (markHead d (c :: cs)).head = some e.addr
        -- the position is made one of a child
        have hmark : ∃ i < (c :: cs).length, (markHead d (c :: cs)).head = (c :: cs)[i]?.map addr := by
          unfold markHead
          dsimp only
          have hpos : 0 < (c :: cs).length := Nat.succ_pos _
          generalize hn : (if d.headPosition = 0 then (c :: cs).length else d.headPosition) = n
          have hn' : 0 < n := by
            split at hn
            · omega
            · omega
          by_cases hgt : n > 0 ∧ n > (c :: cs).length
          · rw [if_pos hgt]
            exact ⟨_, by omega, rfl⟩
          · rw [if_neg hgt, if_pos hn']
            exact ⟨n - 1, by omega, rfl⟩
        obtain ⟨i, hi, hhead⟩ := hmark
        rw [hhead, getElem?_eq_getElem hi]
        exact ⟨_, mem_map_of_mem (getElem_mem hi), congrArg some markHeads_addr.symm⟩
      · obtain ⟨e', he', rfl⟩ := mem_map.1 he
        exact ih e' he' hs

theorem unbar_of_lt (h : ∀ s ∈ t.nodes, s.addr < base) : t.unbar base = [t.forgetHeads] := by
  induction t using induct with
  | h a d cs ih =>
    have hcs : cs.flatMap (unbar base) = cs.map forgetHeads := by
      rw [map_eq_flatMap]
      refine flatMap_congr fun c hc => ?_
      exact ih c hc fun s hs => h s (mem_nodes.2 (.inr ⟨c, hc, hs⟩))
    have ha : a < base := h _ (self_mem_nodes _)
    rw [unbar, if_pos ha, unbarOf_eq, hcs, forgetHeads, forgetHeadsOf_eq]

/-- **A binarizer returns, and what it returns is the parse binarized**: nodes have two children at most, without the new
ones it is the parse, and the head of a node is below all new ones made for it. -/
theorem restruct_binarized (b : Binarizer) {t : SynTree} {next : Nat} (hdistinct : (t.nodes.map addr).Nodup)
    (hnext : ∀ s ∈ t.nodes, s.addr < next) (hheads : b = .headOutwards → ∃ t0 : SynTree, t = t0.markHeads) {fuel : Nat}
    (hfuel : t.nodes.length < fuel) : ∃ t' next', restruct b fuel next t = some (t', next') ∧ Binarized b next t t' := by
  have hhead : b = .headOutwards → ∀ s ∈ t.nodes, 2 < s.children.length → ∃ c ∈ s.children, s.data.head = some c.addr := by
    intro hb s hs hlen
    obtain ⟨t0, rfl⟩ := hheads hb
    exact markHeads_head hs (Nat.zero_lt_of_lt hlen)
  have hready : Ready b next next t := fun s hs =>
    ⟨hnext s hs, children_nodup hdistinct hs, fun _ c hc => hnext c (children_subset hs hc),
      fun hle => absurd (hnext s hs) (Nat.not_lt_of_le hle), fun hb hlen => hhead hb s hs hlen⟩
  have hsmall : (olds next t).length < fuel := (length_filter_le _ _).trans_lt hfuel
  obtain ⟨t', next', hrun, -, hres⟩ := restruct_spec fuel t next le_rfl hready hsmall
  have heach : ∀ s ∈ t.nodes, ∀ s' ∈ t'.nodes, s'.addr = s.addr → ∀ h, HeadOf b s h → ∀ c ∈ s'.children,
      Bars next (s.data.label ++ "-BAR") h c := by
    intro s hs s' hs' haddr
    obtain ⟨s2, hs2, haddr2, hbars⟩ := hres.each s' hs' (haddr ▸ hnext s hs)
    obtain rfl : s2 = s :=
      inj_on_of_nodup_map hdistinct (mem_filter.1 hs2).1 hs (haddr2.trans haddr)
    exact hbars
  refine ⟨t', next', hrun, hres.children_le, hres.unbar_eq.trans (unbar_of_lt hnext), ?_, ?_⟩
  · intro s hs s' hs' haddr
    exact heach s hs s' hs' haddr none fun h0 hh0 => by cases hh0
  · intro hb s hs hlen
    obtain ⟨hd, hhd, hdhead⟩ := hhead hb s hs hlen
    refine ⟨hd, hhd, hdhead, fun s' hs' haddr => heach s hs s' hs' haddr _ fun h0 hh0 => ?_⟩
    obtain rfl := Option.some.inj hh0
    exact ⟨hb, hdhead, mem_map_of_mem hhd⟩

/-- `(NP (DT the) (JJ old) (JJ red) (NN car))`, the words left out. -/
def theOldRedCar : SynTree :=
  .node 0 ⟨"NP", 4, none⟩ [.node 1 ⟨"DT", 0, none⟩ [], .node 2 ⟨"JJ", 0, none⟩ [], .node 3 ⟨"JJ", 0, none⟩ [],
    .node 4 ⟨"NN", 0, none⟩ []]

theorem restruct_binarized_theOldRedCar : ∃ t' next',
    restruct .headOutwards 6 5 theOldRedCar.markHeads = some (t', next') ∧
      Binarized .headOutwards 5 theOldRedCar.markHeads t' :=
  restruct_binarized .headOutwards (by decide) (by decide) (fun _ => ⟨theOldRedCar, rfl⟩) (by decide)

end Sbmt.Ghkm.SynTree
