import Sbmt.Search.PoolWakeups

/-!
# Who rethrows the exceptions of a thread_pool's jobs

`err` is emptied by the call that throws it (`src/thread_pool.cpp:235-242`), a
thread's own `e` is not: the next job the thread runs, even one that returns,
puts the old exception back (`:207`). `Relapses` is that step. `Races` is a call
that finds `err` while a `join`, which has no lock there, has copied it and not
yet reset it. In a run without these two no exception is thrown twice, and after
a `wait` that threw the pool is as good as new.
-/

namespace Sbmt.Search.JobPool

open Sbmt.Lib Sbmt.Lib.Machine List Function

variable {n : Nat} {κ E : Type*} {s s' : State n κ E}

/-- A call finds an exception to rethrow while another call is between the copy of it and its reset. -/
def Races (s : State n κ E) (a : Act n κ E) : Prop :=
  s.err ≠ none ∧ (∃ c before x, s.callers c = .rethrowing before x) ∧
    ((∃ c before, Waits s c before a ∧ s.pending = []) ∨ ∃ c before, a = .resume c ∧ s.callers c = .joining before false)

/-- The two steps that hand out an exception that was, or is about to be, thrown already. -/
def Repeats (s : State n κ E) (a : Act n κ E) : Prop := Relapses s a ∨ Races s a

/-- No exception has been thrown at a caller twice, and none is on its way to be. -/
structure Spent (s : State n κ E) : Prop where
  once : (s.rethrown.map Thrown.job).Nodup
  old : ∀ y ∈ s.rethrown, y.job ∈ s.finished
  err : ∀ x, s.err = some x → ∀ y ∈ s.rethrown, y.job ≠ x.job
  own : ∀ w j x, (s.workers w).stage = .completing j → (s.workers w).e = some x → x.job = j.ticket →
    (∀ y ∈ s.rethrown, y.job ≠ x.job) ∧ ∀ y, s.err = some y → y.job ≠ x.job
  hand : ∀ c before x, s.callers c = .rethrowing before x →
    s.err = some x ∧ (∀ w, (s.workers w).stage = .gone) ∧
      ∀ c' before' x', s.callers c' = .rethrowing before' x' → c' = c

theorem Caller.Roused.was {x y : Caller E} (h : x.Roused y) {before : Nat} {e : Thrown E}
    (hy : y = .rethrowing before e) : x = .rethrowing before e := by
  rcases h with rfl | ⟨target, b, rfl, rfl⟩ | ⟨before, b, rfl, rfl⟩
  · exact hy
  · cases hy
  · cases hy

section

variable (h : Spent s)
include h

/-- A step of a thread that is still there: no `join` has got as far as `throw_if_error`. -/
theorem Spent.setStage {w : Fin n} {g : Stage} (hw : (s.workers w).stage ≠ .gone)
    (hg : ∀ j, g ≠ .completing j) : Spent (s.setStage w g) :=
  { h with
    own w' j x hj hx := by
      rw [setStage_stage] at hj
      split at hj
      · exact absurd hj (hg j)
      · exact h.own w' j x hj (by simpa using hx)
    hand c before x hc := absurd ((h.hand c before x hc).2.1 w) hw }

theorem Spent.roused {cs : κ → Caller E} (hcs : ∀ c, (s.callers c).Roused (cs c)) : Spent { s with callers := cs } :=
  { h with
    hand := fun c before x hc =>
      have hh := h.hand c before x ((hcs c).was hc)
      ⟨hh.1, hh.2.1, fun c' before' x' hc' => hh.2.2 c' before' x' ((hcs c').was hc')⟩ }

theorem Spent.dequeued {w : Fin n} (hw : (s.workers w).stage = .ready) (hd : Dequeued s w s') : Spent s' := by
  have hgone : (s.workers w).stage ≠ .gone := by simp [hw]
  cases hd with
  | finish hp hj => exact h.setStage hgone (by simp)
  | park hp hj cs hcs hdone =>
    have hr := h.roused hcs
    exact Spent.setStage (s := { s with workerCount := s.workerCount - 1, callers := cs })
      { hr with } hgone (by simp)
  | discard hp he =>
    refine Spent.setStage (s := { s with pending := [], pendingSize := 0 })
      { h with } hgone ?_
    split <;> simp
  | @take j js hp he cs hcs hspace =>
    have hr := h.roused hcs
    exact Spent.setStage (s := s.taken j js cs)
      { hr with } hgone (by simp)

theorem Spent.awake {w : Fin n} {b : Bool} (hw : (s.workers w).stage = .parked b) : Spent (s.awake w) :=
  Spent.setStage (s := { s with workerCount := s.workerCount + 1 })
    { h with } (by simp [hw]) (by simp)

/-- The job a thread holds has ended, with `e` the thread's last exception. -/
theorem Spent.ended (ht : Tickets s) (hf : Filed s) {w : Fin n} {j : Job}
    (hw : (s.workers w).stage = .running j) {e : Option (Thrown E)} (thrown : List (Thrown E)) :
    Spent { s with
      workers := update s.workers w ⟨.completing j, e⟩
      finished := s.finished ++ [j.ticket]
      thrown := thrown } where
  once := h.once
  old y hy := mem_append_left _ (h.old y hy)
  err := h.err
  own w' j' x hj hx heq := by
    by_cases hww : w' = w
    · subst hww
      simp only [update_self, Stage.completing.injEq] at hj
      subst hj
      -- the job was running, so nothing that was thrown before is its own
      refine ⟨fun y hy hyx => ?_, fun y hy hyx => ?_⟩
      · exact ht.live w' j hw (by rw [← heq, ← hyx]; exact h.old y hy)
      · exact ht.live w' j hw (by rw [← heq, ← hyx]; exact hf.err y hy)
    · simp only [update_of_ne hww] at hj hx
      exact h.own w' j' x hj hx heq
  hand c before x hc := by
    have hgone := (h.hand c before x hc).2.1 w
    rw [hw] at hgone
    cases hgone

/-- A thread's own new exception becomes that of the pool. -/
theorem Spent.report (ht : Tickets s) {w : Fin n} {j : Job} {x : Thrown E}
    (hw : (s.workers w).stage = .completing j) (he : (s.workers w).e = some x) (hown : x.job = j.ticket) :
    Spent (({ s with err := some x } : State n κ E).setStage w .ready) where
  once := h.once
  old := h.old
  err x' hx' := by
    cases hx'
    exact (h.own w j x hw he hown).1
  own w' j' x' hj' hx' heq := by
    rw [setStage_stage] at hj'
    split at hj'
    · cases hj'
    · next hww =>
      replace hx' : (s.workers w').e = some x' := by simpa using hx'
      refine ⟨(h.own w' j' x' hj' hx' heq).1, fun y hy hyx => hww ?_⟩
      cases hy
      refine ht.apart w' w j' j (by rw [hj']; rfl) (by rw [hw]; rfl) ?_
      rw [← heq, ← hown, hyx]
  hand c before x' hc := by
    have hgone := (h.hand c before x' hc).2.1 w
    rw [hw] at hgone
    cases hgone

theorem Spent.notifyWorkers : Spent s.notifyWorkers where
  once := h.once
  old := h.old
  err := h.err
  own w j x hj hx heq := by
    rw [notifyWorkers_e] at hx
    rcases notifyWorkers_stage s w with hw | ⟨hw, b, hb⟩
    · exact h.own w j x (hw.symm.trans hj) hx heq
    · rw [hw] at hj
      cases hj
  hand c before x hc := by
    obtain ⟨he, hgone, huniq⟩ := h.hand c before x hc
    refine ⟨he, fun w => ?_, huniq⟩
    rcases notifyWorkers_stage s w with hw | ⟨hw, b, hb⟩
    · rw [hw]
      exact hgone w
    · rw [hgone w] at hb
      cases hb

/-- A call takes the pool's exception and throws it, with no job under way. -/
theorem Spent.throwIfError (hf : Filed s) (hidle : ∀ w, (s.workers w).stage.job = none)
    (hno : s.err ≠ none → ∀ c before x, s.callers c ≠ .rethrowing before x) : Spent s.throwIfError where
  once := by
    show ((s.rethrown ++ s.err.toList).map Thrown.job).Nodup
    rw [map_append, nodup_append]
    refine ⟨h.once, ?_, ?_⟩
    · cases s.err <;> simp
    · intro t ht t' ht' heq
      obtain ⟨y, hy, rfl⟩ := mem_map.1 ht
      obtain ⟨x, hx, rfl⟩ := mem_map.1 ht'
      exact h.err x (Option.mem_toList.1 hx) y hy heq
  old y hy := by
    rcases mem_append.1 hy with hy | hy
    · exact h.old y hy
    · exact hf.err y (Option.mem_toList.1 hy)
  err x hx := by cases hx
  own w j x hj := by
    have hnone := hidle w
    rw [show (s.workers w).stage = .completing j from hj] at hnone
    cases hnone
  hand c before x hc := by
    have herr := (h.hand c before x hc).1
    exact absurd hc (hno (by simp [herr]) c before x)

end

section
variable [DecidableEq κ] {a : Act n κ E} {r : Option (Return E)}

theorem Spent.setCaller (h : Spent s) {c : κ} {y : Caller E} (hy : ∀ before x, y ≠ .rethrowing before x) :
    Spent (s.setCaller c y) := by
  have hwas : ∀ c' before x, (s.setCaller c y).callers c' = .rethrowing before x →
      s.callers c' = .rethrowing before x := by
    intro c' before x hc'
    replace hc' : update s.callers c y c' = .rethrowing before x := hc'
    by_cases hcc : c' = c
    · subst hcc
      rw [update_self] at hc'
      exact absurd hc' (hy before x)
    · rwa [update_of_ne hcc] at hc'
  refine { h with hand := ?_ }
  intro c' before x hc'
  obtain ⟨he, hgone, huniq⟩ := h.hand c' before x (hwas c' before x hc')
  exact ⟨he, hgone, fun c'' before' x' hc'' => huniq c'' before' x' (hwas c'' before' x' hc'')⟩

theorem Spent.move (h : Spent s) (hi : Inv s) (hm : Move s a s' r) (hclean : ¬Repeats s a) : Spent s' := by
  obtain ⟨hrelapse, hrace⟩ := not_or.1 hclean
  cases hm with
  | start hw =>
    exact Spent.setStage (s := { s with workerCount := s.workerCount + 1 })
      { h with } (by simp [hw]) (by simp)
  | dequeue hw hd => exact h.dequeued hw hd
  | wake hw hd => exact (h.awake hw).dequeued (awake_stage s _) hd
  | returned hw => exact h.ended hi.tickets hi.filed hw _
  | threw hw => exact h.ended hi.tickets hi.filed hw _
  | pass hw he => exact h.setStage (by simp [hw]) (by simp)
  | @report w j x hw he herr =>
    refine h.report hi.tickets hw he ?_
    by_contra hne
    exact hrelapse ⟨w, j, x, rfl, hw, he, hne, herr⟩
  | leave hw =>
    exact Spent.setStage (s := { s with workerCount := s.workerCount - 1 })
      { h with } (by simp [hw]) (by simp)
  | refused => exact h
  | block => exact h.setCaller (by simp)
  | @push a c target ha hroom =>
    exact (Spent.notifyWorkers (s := s.pushed target)
      { h with }).setCaller (by simp)
  | doze => exact h.setCaller (by simp)
  | @waited a c before ha hcount hp =>
    refine (h.throwIfError hi.filed (fun w => job_of_uncounted (uncounted_of_zero hi.counts hcount w)) ?_).setCaller
      (by simp)
    intro herr c' before' x hc'
    exact hrace ⟨herr, ⟨c', before', x, hc'⟩, .inl ⟨c, before, ha, hp⟩⟩
  | ask hc =>
    exact (Spent.notifyWorkers (s := { s with
      joinRequested := true, requested := if s.joinRequested then s.requested else s.accepted })
      { h with }).setCaller (by simp)
  | joined => exact h.setCaller (by simp)
  | @copy c before x hc hgone he =>
    have hno : ∀ c' before' x', s.callers c' ≠ .rethrowing before' x' := by
      intro c' before' x' hc'
      exact hrace ⟨by simp [he], ⟨c', before', x', hc'⟩, .inr ⟨c, before, rfl, hc⟩⟩
    have honly : ∀ c' before' x', (s.setCaller c (.rethrowing before x)).callers c' = .rethrowing before' x' →
        c' = c ∧ x' = x := by
      intro c' before' x' hc'
      replace hc' : update s.callers c (.rethrowing before x) c' = .rethrowing before' x' := hc'
      by_cases hcc : c' = c
      · subst hcc
        rw [update_self] at hc'
        cases hc'
        exact ⟨rfl, rfl⟩
      · rw [update_of_ne hcc] at hc'
        exact absurd hc' (hno c' before' x')
    refine { h with hand := ?_ }
    intro c' before' x' hc'
    obtain ⟨rfl, rfl⟩ := honly c' before' x' hc'
    exact ⟨he, hgone, fun c'' before'' x'' hc'' => (honly c'' before'' x'' hc'').1⟩
  | @reset c before x hc =>
    obtain ⟨he, hgone, huniq⟩ := h.hand c before x hc
    constructor
    · show ((s.rethrown ++ [x]).map Thrown.job).Nodup
      rw [map_append, nodup_append]
      refine ⟨h.once, nodup_singleton _, ?_⟩
      intro t ht t' ht' heq
      obtain ⟨y, hy, rfl⟩ := mem_map.1 ht
      rw [mem_singleton.1 ht'] at heq
      exact h.err x he y hy heq
    · intro y hy
      rcases mem_append.1 hy with hy | hy
      · exact h.old y hy
      · rw [mem_singleton.1 hy]
        exact hi.filed.err x he
    · intro x' hx'
      cases hx'
    · intro w j x' hj
      have hg := hgone w
      rw [show (s.workers w).stage = .completing j from hj] at hg
      cases hg
    · intro c' before' x' hc'
      replace hc' : update s.callers c .outside c' = .rethrowing before' x' := hc'
      by_cases hcc : c' = c
      · subst hcc
        rw [update_self] at hc'
        cases hc'
      · rw [update_of_ne hcc] at hc'
        exact absurd (huniq c' before' x' hc') hcc

/-! ## After a `wait` that threw -/

/-- What the batch that was queued after the first `lo` jobs may count on: `add` refuses nothing, no job is lost, a
`wait` that returns throws nothing and finds them all over, and a `wait` that was called does return. -/
structure Served (lo : Nat) (s : State n κ E) : Prop where
  open_ : s.err = none
  kept : ∀ t, lo ≤ t → t < s.accepted →
    t ∈ s.pending.map Job.ticket ∨ (∃ w j, (s.workers w).stage = .running j ∧ j.ticket = t) ∨ t ∈ s.finished
  quiet : ∀ a s' ret, s.step a = some (s', some ret) → ret.call = .wait →
    ret.threw = none ∧ ∀ t, lo ≤ t → t < s.accepted → t ∈ s'.finished
  settles : s.joinRequested = false → ∀ c before b, s.callers c = .waiting before b → Settles c s

theorem Calm.served {lo : Nat} (h : Calm lo s) (hi : Inv s) (hs : Steady s) (hpos : 0 < n) : Served lo s where
  open_ := h.err
  kept t hlo ht := by
    rcases mem_append.1 (h.kept t hlo ht) with hst | hp
    · rcases hi.tickets.settled t hst with hfin | hrun
      · exact .inr (.inr hfin)
      · exact .inr (.inl hrun)
    · exact .inl hp
  quiet a s' ret hstep hwait := by
    have hm := move_of_step hstep
    cases hm with
    | waited ha hcount hp =>
      have hjob : ∀ w, (s.workers w).stage.job = none := fun w =>
        job_of_uncounted (uncounted_of_zero hi.counts hcount w)
      exact ⟨h.err, h.settled hi.tickets hp hjob⟩
    | joined hc hgone hk hq => exact absurd hwait hk
    | reset hc => cases hwait
  settles hjoin c before b hc := hs.settles hpos _ (Nat.lt_succ_self _) hjoin ⟨b, hc⟩

/-- A `wait` that threw leaves a pool without an exception, and with no job under way. -/
theorem calm_of_threw (hi : Inv s) {ret : Return E} (hm : Move s a s' (some ret)) (hwait : ret.call = .wait) :
    Calm s'.accepted s' := by
  cases hm with
  | waited ha hcount hp =>
    refine ⟨rfl, ?_, fun t hlo ht => absurd ht (Nat.not_lt_of_le hlo)⟩
    intro w j x hj
    have hnone := job_of_uncounted (uncounted_of_zero hi.counts hcount w)
    rw [show (s.workers w).stage = .completing j from hj] at hnone
    cases hnone
  | joined hc hgone hk hq => exact absurd hwait hk
  | reset hc => cases hwait

/-- `Calm` lasts as long as no job throws and no thread brings up an old exception. -/
theorem Calm.throughout {lo : Nat} {base : List (Thrown E)} (hpos : 0 < n) {as : List (Act n κ E)}
    (h : Calm lo s) (hbase : s.thrown = base) (hi : Inv s) (hs : Steady s)
    (hclean : Along State.next (fun s a => ¬Repeats s a) as s) :
    Throughout State.next (fun s2 => s2.thrown = base → Served lo s2) as s := by
  refine Throughout.mono (Q := fun s1 => Inv s1 ∧ Steady s1 ∧ base <+: s1.thrown ∧ (s1.thrown = base → Calm lo s1))
    (fun s1 h1 hthrown => (h1.2.2.2 hthrown).served h1.1 h1.2.1 hpos) ?_
  refine throughout_of_step (P := fun s a => ¬Repeats s a) ?_
    ⟨hi, hs, by rw [hbase], fun _ => h⟩ hclean
  rintro s1 a s2 ⟨hi1, hs1, hpre, hcalm⟩ hno hn
  obtain ⟨r, hm⟩ := move_of_next hn
  refine ⟨hi1.move hm, hs1.move hm, hpre.trans (thrown_grows hm), fun hthrown => ?_⟩
  have heq : s1.thrown = base := by
    have hle := hthrown ▸ thrown_grows hm
    exact List.IsPrefix.eq_of_length_le hle hpre.length_le
  exact (hcalm heq).move hi1.tickets hi1.filed hm (hthrown.trans heq.symm) fun hr => hno (.inl hr)

omit [DecidableEq κ] in
theorem Spent.make {maxRunning maxJobs : Nat} {s0 : State maxRunning κ E}
    (h : State.make κ E maxRunning maxJobs = .ok s0) : Spent s0 := by
  unfold State.make at h
  split at h
  · cases h
  · split at h
    · cases h
    · cases h
      constructor <;> simp

/-- **Exceptions come up once.** In a run without the two steps of `Repeats`, no job's exception is rethrown by two
calls, and after a `wait` that threw, as long as no further job throws, the pool serves the jobs that are queued then. -/
theorem pool_errors {maxRunning maxJobs : Nat} {s0 : State maxRunning κ E}
    (hmake : State.make κ E maxRunning maxJobs = .ok s0) {as : List (Act maxRunning κ E)}
    (hclean : Along State.next (fun s a => ¬Repeats s a) as s0) :
    Throughout State.next (fun s => (s.rethrown.map Thrown.job).Nodup) as s0 ∧
      ∀ pre a post s s1 ret, as = pre ++ a :: post → run State.next pre s0 = some s →
        s.step a = some (s1, some ret) → ret.call = .wait → ret.threw ≠ none →
        Throughout State.next (fun s2 => s2.thrown = s1.thrown → Served s1.accepted s2) post s1 := by
  constructor
  · refine Throughout.mono (Q := fun s => Inv s ∧ Spent s) (fun s hs => hs.2.once) ?_
    refine throughout_of_step (P := fun s a => ¬Repeats s a) ?_ ⟨Inv.make hmake, Spent.make hmake⟩ hclean
    rintro s a s' ⟨hi, hs⟩ hno hn
    obtain ⟨r, hm⟩ := move_of_next hn
    exact ⟨hi.move hm, hs.move hi hm hno⟩
  · rintro pre a post s s1 ret rfl hrun hstep hwait -
    have hm := move_of_step hstep
    have hi := (Inv.make hmake).run hrun
    have hs : Steady s := run_of_step (P := fun _ _ => True)
      (fun _ _ _ hq _ hn => hq.move (move_of_next hn).choose_spec) (Steady.make hmake) along_true hrun
    have hrest := (along_append.1 hclean).2 s hrun s1 (next_of_step hstep)
    exact (calm_of_threw hi hm hwait).throughout (make_pos hmake).1 rfl (hi.move hm) (hs.move hm) hrest.2

/-- A job throws, and the caller's `wait` rethrows it: the thread's `e` is that of the job it completes. -/
theorem pool_errors_one : ∃ s0 : State 1 Unit Unit, State.make Unit Unit 1 1 = .ok s0 ∧
    Throughout State.next (fun s => (s.rethrown.map Thrown.job).Nodup)
      [.start 0, .call () (.add true), .dequeue 0, .run 0 (some ()), .complete 0, .dequeue 0, .call () .wait] s0 := by
  refine ⟨_, rfl, (@pool_errors Unit Unit _ 1 1 _ rfl _ ?_).1⟩
  refine .cons rfl ?_ (.cons rfl ?_ (.cons rfl ?_ (.cons rfl ?_ (.cons rfl ?_ (.cons rfl ?_ (.cons rfl ?_ trivial))))))
  all_goals
    rintro (⟨w, j, x, ha, hw, he, hne, -⟩ | ⟨-, ⟨c, before, x, hc⟩, -⟩)
    · cases ha <;> cases hw <;> cases he <;> exact hne rfl
    · cases hc

/-- One thread. Its first job throws, and the caller's `wait` rethrows that; the second job returns, and the thread's
`e` is still that of the first. The caller's next `wait` throws the first job's exception again. -/
theorem rethrown_twice : ∃ (s0 s s' : State 1 Unit Unit), State.make Unit Unit 1 1 = .ok s0 ∧
    run State.next [.start 0, .call () (.add true), .dequeue 0, .run 0 (some ()), .complete 0, .dequeue 0, .call () .wait,
      .call () (.add true), .dequeue 0, .run 0 none, .complete 0, .dequeue 0] s0 = some s ∧
    s.thrown = [⟨0, ()⟩] ∧ s.rethrown = [⟨0, ()⟩] ∧
    s.step (.call () .wait) = some (s', some ⟨.wait, 2, some ⟨0, ()⟩⟩) ∧ s'.rethrown = [⟨0, ()⟩, ⟨0, ()⟩] ∧
    ¬(s'.rethrown.map Thrown.job).Nodup :=
  ⟨_, _, _, rfl, rfl, rfl, rfl, rfl, rfl, by decide⟩

end

end Sbmt.Search.JobPool
