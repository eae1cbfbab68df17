import Sbmt.Carmel.StateOps

/-!
# Counts and indices stay right (`carmel/src/state.h:213-334`, `carmel/src/fst.cc:238-265`, `:370-454`)

`State.Sound` says that a state counts its arcs and that its index, if it has one, points to the arcs it has.  An
operation keeps that of all states exactly if `ArcAct.Allowed`: `assignWeights` erases arcs without counting them, so it
must find a weight for every tied arc; `addArc`, `prune` and the loop of `prunePaths` do not flush, so they must not
change the arcs of a state that has an index, unless `removeMarkedStates` flushes all of them afterwards.
-/

namespace Sbmt.Carmel

open Sbmt.Lib List Option

variable {W : Type*}

structure State.Sound (s : State W) : Prop where
  size_eq : s.size = s.arcs.length
  fresh : ∀ i, s.index = some i → i.arcs = s.arcs

def IndexedFst.Sound (y : IndexedFst W) : Prop := ∀ s ∈ y.states, s.Sound

/-! ## The operations on a state -/

section

variable {s : State W} {f : FSTArc W → Option (FSTArc W)} {cond : FSTArc W → Bool}

theorem eraseFrom_eq : ∀ (ls : List (FSTArc W)) (size : Int),
    State.eraseFrom f ls size = (ls.filterMap f, size - ls.length + (ls.filterMap f).length)
  | [], size => by simp [State.eraseFrom]
  | l :: ls, size => by
    rw [State.eraseFrom]
    cases hl : f l with
    | none =>
      rw [eraseFrom_eq ls, filterMap_cons_none hl, length_cons]
      refine congrArg (Prod.mk _) ?_
      omega
    | some l' =>
      dsimp only
      rw [eraseFrom_eq ls, filterMap_cons_some hl, length_cons, length_cons]
      refine congrArg (Prod.mk _) ?_
      omega

theorem eraseLoop_arcs : (s.eraseLoop f).arcs = s.arcs.filterMap f := by rw [State.eraseLoop, eraseFrom_eq]

theorem State.Sound.eraseLoop_size (h : s.Sound) : (s.eraseLoop f).size = (s.eraseLoop f).arcs.length := by
  rw [State.eraseLoop, eraseFrom_eq, h.size_eq]
  dsimp only
  omega

theorem State.Sound.flush (h : s.Sound) : s.flush.Sound := ⟨h.size_eq, fun i hi => by cases hi⟩

theorem State.Sound.flush_eraseLoop (h : s.Sound) : (s.flush.eraseLoop f).Sound :=
  ⟨h.flush.eraseLoop_size, fun i hi => by cases hi⟩

theorem filterMap_unless (l : List (FSTArc W)) :
    (l.filterMap fun a => if cond a then none else some a) = l.filter fun a => !cond a := by
  rw [← filterMap_eq_filter]
  refine filterMap_congr fun a _ => ?_
  cases hc : cond a with
  | true => simp [Option.guard, hc]
  | false => simp [Option.guard, hc]

/-- Arcs may go only where there is no index. -/
theorem State.Sound.removeIf_iff (h : s.Sound) :
    (s.removeIf cond).Sound ↔ s.index = none ∨ ∀ a ∈ s.arcs, cond a = false := by
  have harcs : (s.removeIf cond).arcs = s.arcs.filter fun a => !cond a := by
    rw [State.removeIf, eraseLoop_arcs, filterMap_unless]
  have hindex : (s.removeIf cond).index = s.index := rfl
  constructor
  · intro h'
    cases hi : s.index with
    | none => exact .inl rfl
    | some i =>
      refine .inr fun a ha => ?_
      have heq := (h'.fresh i (hindex.trans hi)).symm.trans (h.fresh i hi)
      rw [harcs, filter_eq_self] at heq
      rw [← Bool.not_eq_true']
      exact heq a ha
  · intro hor
    refine ⟨h.eraseLoop_size, fun i hi => ?_⟩
    rw [hindex] at hi
    rcases hor with hnone | hall
    · rw [hnone] at hi
      cases hi
    · rw [harcs, filter_eq_self.2 fun a ha => by rw [hall a ha]; rfl]
      exact h.fresh i hi

theorem State.Sound.addArc_iff (h : s.Sound) (arc : FSTArc W) : (s.addArc arc).Sound ↔ s.index = none := by
  constructor
  · intro h'
    cases hi : s.index with
    | none => rfl
    | some i =>
      have heq : s.arcs = arc :: s.arcs := (h.fresh i hi).symm.trans (h'.fresh i hi)
      exact absurd (congrArg List.length heq) (Nat.ne_of_lt (Nat.lt_succ_self _))
  · intro hnone
    refine ⟨?_, fun i hi => ?_⟩
    · show s.size + 1 = ((arc :: s.arcs).length : Int)
      rw [h.size_eq, length_cons, Nat.cast_succ]
    · change s.index = some i at hi
      rw [hnone] at hi
      cases hi

theorem State.Sound.indexBy (h : s.Sound) (output : Bool) : (s.indexBy output).Sound := by
  unfold State.indexBy
  split
  · exact h
  · refine ⟨h.size_eq, ?_⟩
    rintro i ⟨⟩
    rfl

variable (ops : ArcWeightOps W) (sum clamp : Bool)

theorem reduceFrom_size : ∀ (kept ls : List (FSTArc W)) (size : Int), size = kept.length + ls.length →
    (State.reduceFrom ops sum clamp kept ls size).2 = (State.reduceFrom ops sum clamp kept ls size).1.length
  | kept, [], size, h => by
    rw [State.reduceFrom]
    simpa using h
  | kept, l :: ls, size, h => by
    rw [length_cons] at h
    rw [State.reduceFrom]
    split
    · exact reduceFrom_size kept ls _ (by omega)
    · split
      · exact reduceFrom_size _ ls _ (by rw [length_map]; omega)
      · exact reduceFrom_size _ ls _ (by rw [length_append, length_singleton]; push_cast; omega)

theorem State.Sound.reduce (h : s.Sound) : (s.reduce ops sum clamp).Sound := by
  refine ⟨reduceFrom_size ops sum clamp [] _ _ ?_, fun i hi => by cases hi⟩
  rw [length_nil, Nat.cast_zero, zero_add]
  exact h.size_eq

end

/-! ## The operations on all states -/

section

variable {y y' : IndexedFst W}

theorem modifyState_sound_iff (h : y.Sound) {s : Nat} {f : State W → State W} (hrun : y.modifyState s f = some y') :
    y'.Sound ↔ ∀ st, y.states[s]? = some st → (f st).Sound := by
  unfold IndexedFst.modifyState at hrun
  split at hrun
  · obtain rfl := Option.some.inj hrun
    constructor
    · intro h' st hst
      refine h' _ (mem_of_getElem? (i := s) ?_)
      rw [getElem?_modify, hst]
      simp
    · intro hf t ht
      obtain ⟨i, hi⟩ := mem_iff_getElem?.1 ht
      rw [getElem?_modify] at hi
      obtain ⟨st, hst, rfl⟩ := map_eq_some_iff.1 hi
      by_cases hsi : s = i
      · subst hsi
        rw [if_pos rfl]
        exact hf st hst
      · rw [if_neg hsi]
        exact h st (mem_of_getElem? hst)
  · cases hrun

theorem mapStates_sound_iff {f : State W → State W} : (y.mapStates f).Sound ↔ ∀ st ∈ y.states, (f st).Sound :=
  forall_mem_map

theorem IndexedFst.Sound.index (h : y.Sound) (output : Bool) : (y.index output).Sound := by
  unfold IndexedFst.index
  split
  · exact h
  · exact mapStates_sound_iff.2 fun st hst => (h st hst).flush.indexBy output

theorem removeMarkedSwap_subset {α : Type*} {marked : Nat → Bool} {v : List α} {a : α} (h : a ∈ removeMarkedSwap marked v) :
    a ∈ v := by
  rw [removeMarkedSwap_eq, mem_filterMap] at h
  obtain ⟨k, -, hk⟩ := h
  exact mem_of_getElem? hk

/-- Whether a state is marked, the count tells. -/
theorem kept_length_iff {marked : Nat → Bool} {n : Nat} :
    n = (kept marked n).length ↔ ∀ k < n, marked k = false := by
  unfold kept
  constructor
  · intro h k hk
    rw [← Bool.not_eq_true']
    exact length_filter_eq_length_iff.1 (h.symm.trans length_range.symm) k (mem_range.2 hk)
  · intro h
    rw [filter_eq_self.2 fun k hk => by rw [h k (mem_range.1 hk)]; rfl, length_range]

/-- Of states that count right, after one is removed all are flushed, else they stay as they are. -/
theorem removeMarkedStates_sound_iff {marked : Nat → Bool} (hsize : ∀ s ∈ y.states, s.size = s.arcs.length) :
    (y.removeMarkedStates marked).Sound ↔ (∃ k < y.states.length, marked k = true) ∨ y.Sound := by
  unfold IndexedFst.removeMarkedStates
  rw [indicesAfterRemoveMarked_eq]
  by_cases hall : ∀ k < y.states.length, marked k = false
  · rw [if_pos (kept_length_iff.2 hall)]
    constructor
    · exact .inr
    · rintro (⟨k, hk, hmark⟩ | h)
      · rw [hall k hk] at hmark
        cases hmark
      · exact h
  · rw [if_neg fun h => hall (kept_length_iff.1 h)]
    refine iff_of_true ?_ (.inl ?_)
    · intro t ht
      obtain ⟨s, hs, rfl⟩ := mem_map.1 ht
      have hflush : s.flush.Sound := ⟨hsize s (removeMarkedSwap_subset hs), fun i hi => by cases hi⟩
      exact ⟨hflush.eraseLoop_size, fun i hi => by cases hi⟩
    · by_contra hno
      refine hall fun k hk => ?_
      rw [Bool.eq_false_iff]
      exact fun hmark => hno ⟨k, hk, hmark⟩

end

/-! ## Assigning weights -/

section

variable {source y : IndexedFst W}

theorem groupWeight_isSome_iff {g : Nat} :
    (source.groupWeight g).isSome ↔ ∃ s ∈ source.states, ∃ a ∈ s.arcs, FSTArc.tied a.groupId = true ∧ a.groupId = g := by
  have hloop : ∀ (ls : List (FSTArc W)) (m : Nat → Option W),
      (ls.foldl (fun (m : Nat → Option W) a =>
        if FSTArc.tied a.groupId then Function.update m a.groupId (some a.weight) else m) m g).isSome ↔
        (m g).isSome ∨ ∃ a ∈ ls, FSTArc.tied a.groupId = true ∧ a.groupId = g := by
    intro ls
    induction ls with
    | nil => simp
    | cons a ls ih =>
      intro m
      rw [foldl_cons, ih]
      by_cases htied : FSTArc.tied a.groupId = true
      · rw [if_pos htied]
        by_cases hg : a.groupId = g
        · subst hg
          simp [htied]
        · rw [Function.update_of_ne (Ne.symm hg)]
          simp [hg]
      · simp [htied]
  rw [IndexedFst.groupWeight, hloop]
  simp only [isSome_none, Bool.false_eq_true, false_or, mem_flatMap]
  constructor
  · rintro ⟨a, ⟨s, hs, ha⟩, h⟩
    exact ⟨s, hs, a, ha, h⟩
  · rintro ⟨s, hs, a, ha, h⟩
    exact ⟨a, ⟨s, hs, ha⟩, h⟩

theorem assignArc_isSome_iff {a : FSTArc W} : (IndexedFst.assignArc source.groupWeight a).isSome ↔
    (FSTArc.tied a.groupId = true → ∃ s ∈ source.states, ∃ b ∈ s.arcs, b.groupId = a.groupId) := by
  unfold IndexedFst.assignArc
  by_cases htied : FSTArc.tied a.groupId = true
  · rw [if_pos htied, isSome_map, groupWeight_isSome_iff]
    constructor
    · rintro ⟨s, hs, b, hb, -, hg⟩ _
      exact ⟨s, hs, b, hb, hg⟩
    · intro h
      obtain ⟨s, hs, b, hb, hg⟩ := h htied
      exact ⟨s, hs, b, hb, hg ▸ htied, hg⟩
  · rw [if_neg htied]
    exact iff_of_true rfl fun h => absurd h htied

theorem assignWeights_sound_iff (h : y.Sound) : (y.assignWeights source).Sound ↔
    ∀ st ∈ y.states, ∀ a ∈ st.arcs, FSTArc.tied a.groupId = true →
      ∃ s ∈ source.states, ∃ b ∈ s.arcs, b.groupId = a.groupId := by
  unfold IndexedFst.assignWeights
  rw [mapStates_sound_iff]
  refine forall₂_congr fun st hst => ?_
  simp only [← assignArc_isSome_iff]
  rw [← filterMap_length_eq_length]
  constructor
  · intro h'
    have hsize : st.size = _ := h'.size_eq
    rw [(h st hst).size_eq] at hsize
    exact (Nat.cast_injective hsize).symm
  · intro hlen
    refine ⟨?_, fun i hi => by cases hi⟩
    show st.size = _
    rw [(h st hst).size_eq, ← hlen]
    rfl

end

/-! ## Pruning paths -/

section

variable {K : Type} [AddCommMonoid K] [LinearOrder K] {getCost : W → WithTop K} {y y' : IndexedFst W}

/-- When `prunePaths` keeps counts and indices right: it does not look at the arcs, or it takes out a state, or the
states that have an index have only arcs within the ratio. -/
def PrunesSoundly (getCost : W → WithTop K) (sort : List (WithTop K × Nat) → List (WithTop K × Nat)) (maxStates : Int)
    (ratio : WithTop K) (y : IndexedFst W) : Prop :=
  ratio = ⊤ ∨ ∀ final f r, y.final = some final →
    shortestDistancesFrom (makeGraph getCost (y.states.map State.arcs)) 0 = some f →
    shortestDistancesFrom (reverseGraph (makeGraph getCost (y.states.map State.arcs))) final = some r →
    (∃ s < y.states.length, s ∉ ranked sort y.states.length (allowedStates maxStates y.states.length) f.dist r.dist ∨
      f.dist final + ratio < f.dist s + r.dist s) ∨
    ∀ (s : Nat) (st : State W), y.states[s]? = some st →
      st.index = none ∨ ∀ a ∈ st.arcs, arcWithin getCost (f.dist final + ratio) f.dist r.dist s a = true

variable {sort : List (WithTop K × Nat) → List (WithTop K × Nat)} {maxStates : Int} {ratio : WithTop K} {final : Nat}
  {f r : DistState K} {o : Pruning (State W)}

/-- The states after the loops, and `removeMarkedStates` after them. -/
theorem loops_sound_iff (h : y.Sound) (hfinal : y.final = some final)
    (hf : shortestDistancesFrom (makeGraph getCost (y.states.map State.arcs)) 0 = some f)
    (hr : shortestDistancesFrom (reverseGraph (makeGraph getCost (y.states.map State.arcs))) final = some r)
    (hremove : ∀ s < y.states.length, o.remove s = true ↔
      s ∉ ranked sort y.states.length (allowedStates maxStates y.states.length) f.dist r.dist ∨
        decide (ratio = ⊤) = false ∧ f.dist final + ratio < f.dist s + r.dist s)
    (hstates : ∀ s : Nat, o.states[s]? = y.states[s]?.map
      (if Thinned (decide (ratio = ⊤)) (f.dist final + ratio) (fun s => f.dist s + r.dist s)
        (ranked sort y.states.length (allowedStates maxStates y.states.length) f.dist r.dist) s
      then State.removeIf fun a => !arcWithin getCost (f.dist final + ratio) f.dist r.dist s a else id)) :
    (IndexedFst.removeMarkedStates { y with states := o.states } o.remove).Sound ↔
      PrunesSoundly getCost sort maxStates ratio y := by
  have hlen : o.states.length = y.states.length := by
    apply Nat.le_antisymm
    · rw [← List.getElem?_eq_none_iff, hstates, getElem?_eq_none le_rfl]
      rfl
    · rw [← List.getElem?_eq_none_iff, ← map_eq_none_iff, ← hstates, getElem?_eq_none le_rfl]
  have hsize : ∀ s ∈ o.states, s.size = s.arcs.length := by
    intro t ht
    obtain ⟨s, hs⟩ := mem_iff_getElem?.1 ht
    rw [hstates] at hs
    obtain ⟨st, hst, rfl⟩ := map_eq_some_iff.1 hs
    have hsound := h st (mem_of_getElem? hst)
    split
    · exact hsound.eraseLoop_size
    · exact hsound.size_eq
  rw [removeMarkedStates_sound_iff hsize]
  rw [hlen]
  by_cases htop : ratio = ⊤
  · refine iff_of_true (.inr fun t ht => ?_) (.inl htop)
    obtain ⟨s, hs⟩ := mem_iff_getElem?.1 ht
    rw [hstates, if_neg fun hthin => by rw [decide_eq_true htop] at hthin; cases hthin.2.1] at hs
    obtain ⟨st, hst, rfl⟩ := map_eq_some_iff.1 hs
    exact h st (mem_of_getElem? hst)
  · have hover : (∃ s < y.states.length, o.remove s = true) ↔ ∃ s < y.states.length,
        s ∉ ranked sort y.states.length (allowedStates maxStates y.states.length) f.dist r.dist ∨
          f.dist final + ratio < f.dist s + r.dist s := by
      refine exists_congr fun s => and_congr_right fun hs => (hremove s hs).trans (or_congr_right ?_)
      exact and_iff_right (decide_eq_false htop)
    have hspec := Iff.intro (fun hp : PrunesSoundly getCost sort maxStates ratio y =>
      hp.resolve_left htop final f r hfinal hf hr) fun hor => by
        refine .inr fun final' f' r' hfinal' hf' hr' => ?_
        obtain rfl := mem_unique hfinal hfinal'
        obtain rfl := mem_unique hf hf'
        obtain rfl := mem_unique hr hr'
        exact hor
    rw [hspec, ← hover]
    by_cases hcut : ∃ s < y.states.length, o.remove s = true
    · exact iff_of_true (.inl hcut) (.inl hcut)
    · rw [or_iff_right hcut, or_iff_right hcut]
      -- no state is taken out, and the loop looks at the arcs of all of them
      have hthin : ∀ s < y.states.length, Thinned (decide (ratio = ⊤)) (f.dist final + ratio)
          (fun s => f.dist s + r.dist s)
          (ranked sort y.states.length (allowedStates maxStates y.states.length) f.dist r.dist) s := by
        intro s hs
        have hno := not_or.1 fun hor => hcut (hover.2 ⟨s, hs, hor⟩)
        exact ⟨not_not.1 hno.1, decide_eq_false htop, hno.2⟩
      have hat : ∀ (s : Nat) st, y.states[s]? = some st → o.states[s]? =
          some (st.removeIf fun a => !arcWithin getCost (f.dist final + ratio) f.dist r.dist s a) := by
        intro s st hst
        rw [hstates, hst, if_pos (hthin s (List.getElem?_eq_some_iff.1 hst).1)]
        rfl
      have hiff : ∀ (s : Nat) st, y.states[s]? = some st →
          ((st.removeIf fun a => !arcWithin getCost (f.dist final + ratio) f.dist r.dist s a).Sound ↔
            st.index = none ∨ ∀ a ∈ st.arcs, arcWithin getCost (f.dist final + ratio) f.dist r.dist s a = true) := by
        intro s st hst
        rw [(h st (mem_of_getElem? hst)).removeIf_iff]
        simp only [Bool.not_eq_false']
      constructor
      · intro hsound s st hst
        exact (hiff s st hst).1 (hsound _ (mem_of_getElem? (hat s st hst)))
      · intro hall t ht
        obtain ⟨s, hs⟩ := mem_iff_getElem?.1 ht
        have hlt : s < y.states.length := by
          rw [← hlen]
          exact (List.getElem?_eq_some_iff.1 hs).1
        have hst := getElem?_eq_getElem hlt
        rw [hat s _ hst] at hs
        obtain rfl := Option.some.inj hs
        exact (hiff s _ hst).2 (hall s _ hst)

theorem prunePaths_sound_iff (hsort : Sorts sort) (h : y.Sound)
    (hrun : y.prunePaths getCost sort maxStates ratio = some y') :
    y'.Sound ↔ PrunesSoundly getCost sort maxStates ratio y := by
  rw [IndexedFst.prunePaths] at hrun
  by_cases hall : maxStates = unlimited ∧ decide (ratio = ⊤) = true
  · rw [if_pos hall] at hrun
    obtain rfl := Option.some.inj hrun
    exact iff_of_true h (.inl (of_decide_eq_true hall.2))
  · rw [if_neg hall] at hrun
    obtain ⟨final, hfinal, hrun⟩ := bind_eq_some_iff.1 hrun
    obtain ⟨f, hf, hrun⟩ := bind_eq_some_iff.1 hrun
    obtain ⟨r, hr, rfl⟩ := map_eq_some_iff.1 hrun
    obtain ⟨hremove, hstates⟩ := pruneLoops_spec hsort y.states.length (allowedStates maxStates y.states.length) f.dist
      r.dist (decide (ratio = ⊤)) (f.dist final + ratio)
      (fun st => State.removeIf fun a => !arcWithin getCost (f.dist final + ratio) f.dist r.dist st a) y.states
    exact loops_sound_iff h hfinal hf hr hremove hstates

end

/-! ## Runs -/

section

variable {K : Type} [AddCommMonoid K] [LinearOrder K] (ops : ArcWeightOps W) (getCost : W → WithTop K)

/-- When an operation keeps the count and the index of every state right. -/
def ArcAct.Allowed (y : IndexedFst W) : ArcAct W K → Prop
  | .addArc s _ => ∀ st, y.states[s]? = some st → st.index = none
  | .prune s thresh => ∀ st, y.states[s]? = some st → st.index = none ∨ ∀ a ∈ st.arcs, ops.less a.weight thresh = false
  | .pruneArcs thresh => ∀ st ∈ y.states, st.index = none ∨ ∀ a ∈ st.arcs, ops.less a.weight thresh = false
  | .prunePaths sort maxStates ratio => PrunesSoundly getCost sort.1 maxStates ratio y
  | .assignWeights source => ∀ st ∈ y.states, ∀ a ∈ st.arcs, FSTArc.tied a.groupId = true →
      ∃ s ∈ source.states, ∃ b ∈ s.arcs, b.groupId = a.groupId
  | _ => True

variable {ops getCost} {y y' : IndexedFst W}

theorem ArcAct.next_sound_iff {act : ArcAct W K} (h : y.Sound) (hrun : act.next ops getCost y = some y') :
    y'.Sound ↔ act.Allowed ops getCost y := by
  have hat : ∀ {s : Nat} {st}, y.states[s]? = some st → st.Sound := fun hst => h _ (mem_of_getElem? hst)
  cases act with
  | index output =>
    obtain rfl := Option.some.inj hrun
    exact iff_of_true (h.index output) trivial
  | indexFlush =>
    obtain rfl := Option.some.inj hrun
    exact iff_of_true (mapStates_sound_iff.2 fun st hst => (h st hst).flush) trivial
  | addArc s arc =>
    exact (modifyState_sound_iff h hrun).trans (forall₂_congr fun st hst => (hat hst).addArc_iff arc)
  | reduce s sum clamp =>
    exact iff_of_true ((modifyState_sound_iff h hrun).2 fun st hst => (hat hst).reduce ops sum clamp) trivial
  | consolidateArcs sum clamp =>
    obtain rfl := Option.some.inj hrun
    exact iff_of_true (mapStates_sound_iff.2 fun st hst => (h st hst).reduce ops sum clamp) trivial
  | removeEpsilonsTo s dest =>
    exact iff_of_true ((modifyState_sound_iff h hrun).2 fun st hst => (hat hst).flush_eraseLoop) trivial
  | prune s thresh =>
    exact (modifyState_sound_iff h hrun).trans (forall₂_congr fun st hst => (hat hst).removeIf_iff)
  | pruneArcs thresh =>
    obtain rfl := Option.some.inj hrun
    exact mapStates_sound_iff.trans (forall₂_congr fun st hst => (h st hst).removeIf_iff)
  | renumberDestinations s oldToNew =>
    exact iff_of_true ((modifyState_sound_iff h hrun).2 fun st hst => (hat hst).flush_eraseLoop) trivial
  | removeMarkedStates marked =>
    obtain rfl := Option.some.inj hrun
    exact iff_of_true ((removeMarkedStates_sound_iff fun s hs => (h s hs).size_eq).2 (.inr h)) trivial
  | prunePaths sort maxStates ratio => exact prunePaths_sound_iff sort.2 h hrun
  | assignWeights source =>
    obtain rfl := Option.some.inj hrun
    exact assignWeights_sound_iff h

/-- **A sequence of operations keeps every count and every index right throughout exactly if each of them is allowed
where it is called.** -/
theorem sound_throughout_iff (acts : List (ArcAct W K)) (h : y.Sound) :
    Machine.Throughout (fun y (act : ArcAct W K) => act.next ops getCost y) IndexedFst.Sound acts y ↔
      Machine.Along (fun y (act : ArcAct W K) => act.next ops getCost y) (fun y act => act.Allowed ops getCost y) acts y :=
  Machine.throughout_iff_along (I := fun _ => True) (fun _ _ _ _ _ => trivial)
    (fun _ _ _ _ hs hrun => ArcAct.next_sound_iff hs hrun) trivial h

def natWeights : ArcWeightOps Nat := ⟨fun w => decide (w = 0), Nat.add, fun v w => decide (v < w), 1⟩

/-- One state that loops by an arc of group 5. -/
def tiedLoop : IndexedFst Nat := ⟨[⟨[⟨1, 1, 0, 7, 5⟩], 1, none⟩], some 0, none⟩

theorem tiedLoop_sound : tiedLoop.Sound := by
  intro s hs
  rw [mem_singleton.1 hs]
  exact ⟨rfl, fun i hi => by cases hi⟩

theorem sound_throughout_iff_tiedLoop :
    Machine.Throughout (fun y (act : ArcAct Nat Nat) => act.next natWeights (fun w => (w : WithTop Nat)) y)
      IndexedFst.Sound [.index true, .reduce 0 true false, .addArc 0 ⟨2, 2, 0, 3, 5⟩, .assignWeights tiedLoop] tiedLoop := by
  refine (sound_throughout_iff _ tiedLoop_sound).2 ?_
  rintro _ ⟨⟩
  refine ⟨trivial, ?_⟩
  rintro _ ⟨⟩
  refine ⟨trivial, ?_⟩
  rintro _ ⟨⟩
  refine ⟨?_, ?_⟩
  · rintro st ⟨⟩
    rfl
  rintro _ ⟨⟩
  refine ⟨?_, trivial⟩
  -- both arcs are in group 5, and the transducer that gives the weights has an arc of it
  have hgroups : ∀ a ∈ [(⟨2, 2, 0, 3, 5⟩ : FSTArc Nat), ⟨1, 1, 0, 7, 5⟩], a.groupId = 5 := by decide
  intro st hst a ha _
  obtain rfl := mem_singleton.1 hst
  exact ⟨_, mem_cons_self, _, mem_cons_self, (hgroups a ha).symm⟩

/-- Without a weight for group 5 the arc goes and the count stays; an index goes stale with the next arc. -/
theorem not_sound_throughout_tiedLoop :
    tiedLoop.Sound ∧
    (¬ Machine.Throughout (fun y (act : ArcAct Nat Nat) => act.next natWeights (fun w => (w : WithTop Nat)) y)
      IndexedFst.Sound [.assignWeights ⟨[], none, none⟩] tiedLoop) ∧
    ¬ Machine.Throughout (fun y (act : ArcAct Nat Nat) => act.next natWeights (fun w => (w : WithTop Nat)) y)
      IndexedFst.Sound [.index true, .pruneArcs 9] tiedLoop := by
  refine ⟨tiedLoop_sound, fun h => ?_, fun h => ?_⟩
  · have hsound : (tiedLoop.assignWeights ⟨[], none, none⟩).Sound := (h.2 _ rfl).first
    have hsize := (hsound _ mem_cons_self).size_eq
    exact absurd hsize (by decide)
  · have hsound : ((tiedLoop.index true).mapStates (State.prune natWeights 9)).Sound := ((h.2 _ rfl).2 _ rfl).first
    have hfresh := (hsound _ mem_cons_self).fresh _ rfl
    exact absurd (congrArg List.length hfresh) (by decide)

end

end Sbmt.Carmel
