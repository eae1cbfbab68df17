import Sbmt.Search.PoolRuns

/-!
# Lost wake-ups of a thread_pool

A thread parks when there is nothing in the queue and nobody asked it to end,
and whoever changes that notifies it. A caller parks in `add` when the queue is
full. A thread that takes a job tells it when there is room
(`src/thread_pool.cpp:199-201`), a thread that throws the whole queue away does
not (`:190-194`). `Strands` is that step.
-/

namespace Sbmt.Search.JobPool

open Sbmt.Lib Sbmt.Lib.Machine Function

variable {n : Nat} {κ E : Type*} {s s' : State n κ E}

/-- A parked thread nobody has notified has nothing to do. -/
def Parked (s : State n κ E) : Prop :=
  ∀ w, (s.workers w).stage = .parked false → s.pending = [] ∧ s.joinRequested = false

/-- A caller parked in `add` that nobody has notified has no room. -/
def Blocked (s : State n κ E) : Prop :=
  ∀ c target, s.callers c = .adding target false → s.maxJobs ≤ s.pendingSize

/-- A caller parked in `wait` that nobody has notified has something to wait for, or the pool is ending. -/
def Awaits (s : State n κ E) : Prop :=
  ∀ c before, s.callers c = .waiting before false → 0 < s.workerCount ∨ s.pending ≠ [] ∨ s.joinRequested = true

/-- A thread is out of its loop only when the pool was asked to end. -/
def Staying (s : State n κ E) : Prop :=
  ∀ w, (s.workers w).stage = .leaving ∨ (s.workers w).stage = .gone → s.joinRequested = true

def NoLostWakeup (s : State n κ E) : Prop := Blocked s ∧ Parked s

/-- A thread throws the queue away while a caller is parked in `add`. -/
def Strands (s : State n κ E) (a : Act n κ E) : Prop :=
  (∃ w, a = .dequeue w) ∧ s.err ≠ none ∧ s.pending ≠ [] ∧ ∃ c target, s.callers c = .adding target false

theorem Caller.Roused.unnotified {x y : Caller E} (h : x.Roused y) {target : Bool} (hy : y = .adding target false) :
    x = .adding target false := by
  rcases h with rfl | ⟨target', b, rfl, rfl⟩ | ⟨before, b, rfl, rfl⟩
  · exact hy
  · cases hy
  · cases hy

theorem notifyWorkers_parked (s : State n κ E) (w : Fin n) : (s.notifyWorkers.workers w).stage ≠ .parked false := by
  rcases hw : s.workers w with ⟨g, e⟩
  cases g <;> simp [State.notifyWorkers, hw]

/-! ## Parked threads -/

variable {w : Fin n}

theorem Parked.setStage (h : Parked s) {g : Stage}
    (hg : g = .parked false → s.pending = [] ∧ s.joinRequested = false) : Parked (s.setStage w g) := by
  intro w' hw'
  rw [setStage_stage] at hw'
  split at hw'
  · exact hg hw'
  · exact h w' hw'

theorem Parked.dequeued (h : Parked s) (hd : Dequeued s w s') : Parked s' := by
  cases hd with
  | finish hp hj => exact h.setStage (by simp)
  | park hp hj cs hcs hdone =>
    exact Parked.setStage h fun _ => ⟨hp, hj⟩
  | discard hp he =>
    intro w' hw'
    rw [setStage_stage] at hw'
    split at hw'
    · split at hw' <;> cases hw'
    · rw [(h w' hw').1] at hp
      cases hp
  | take hp he cs hcs hspace =>
    intro w' hw'
    rw [setStage_stage] at hw'
    split at hw'
    · cases hw'
    · rw [(h w' hw').1] at hp
      cases hp

theorem Staying.setStage (h : Staying s) {g : Stage}
    (hg : g = .leaving ∨ g = .gone → s.joinRequested = true) : Staying (s.setStage w g) := by
  intro w' hw'
  rw [setStage_stage] at hw'
  split at hw'
  · exact hg hw'
  · exact h w' hw'

theorem Staying.dequeued (h : Staying s) (hd : Dequeued s w s') : Staying s' := by
  cases hd with
  | finish hp hj => exact h.setStage fun _ => hj
  | park hp hj cs hcs hdone =>
    exact Staying.setStage h (by simp)
  | discard hp he =>
    refine Staying.setStage h ?_
    intro hg
    by_contra hj
    rw [if_neg hj] at hg
    simp at hg
  | @take j js hp he cs hcs hspace =>
    exact Staying.setStage h (by simp)

/-! ## Parked callers -/

theorem Blocked.dequeued (h : Blocked s) (hd : Dequeued s w s')
    (hroom : s.err ≠ none → s.pending ≠ [] → ∀ c target, s.callers c ≠ .adding target false) : Blocked s' := by
  cases hd with
  | finish hp hj => exact h
  | park hp hj cs hcs hdone => exact fun c target hc => h c target ((hcs c).unnotified hc)
  | discard hp he => exact fun c target hc => absurd hc (hroom (by simp [he]) (by simp [hp]) c target)
  | take hp he cs hcs hspace => exact fun c target hc => Nat.le_of_not_lt fun hlt => hspace hlt c target hc

theorem Awaits.dequeued (h : Awaits s) (hc : Counts s) (hw : (s.workers w).stage = .ready)
    (hd : Dequeued s w s') : Awaits s' := by
  have hpos : 0 < s.workerCount := by
    rw [hc]
    exact counted_pos (by rw [hw]; rfl)
  cases hd with
  | finish hp hj => exact h
  | park hp hj cs hcs hdone =>
    intro c before hwait
    refine .inl (Nat.pos_of_ne_zero fun hzero => ?_)
    exact hdone hzero c before hwait
  | discard hp he => exact fun _ _ _ => .inl hpos
  | take hp he cs hcs hspace => exact fun _ _ _ => .inl hpos

section
variable [DecidableEq κ] {a : Act n κ E} {r : Option (Return E)}

variable {c : κ}

theorem Blocked.setCaller (h : Blocked s) {x : Caller E}
    (hx : ∀ target, x = .adding target false → s.maxJobs ≤ s.pendingSize) : Blocked (s.setCaller c x) := by
  intro c' target hc'
  replace hc' : update s.callers c x c' = .adding target false := hc'
  by_cases hcc : c' = c
  · subst hcc
    rw [update_self] at hc'
    exact hx target hc'
  · rw [update_of_ne hcc] at hc'
    exact h c' target hc'

theorem Awaits.setCaller (h : Awaits s) {x : Caller E}
    (hx : ∀ before, x = .waiting before false → 0 < s.workerCount ∨ s.pending ≠ [] ∨ s.joinRequested = true) :
    Awaits (s.setCaller c x) := by
  intro c' before hc'
  replace hc' : update s.callers c x c' = .waiting before false := hc'
  by_cases hcc : c' = c
  · subst hcc
    rw [update_self] at hc'
    exact hx before hc'
  · rw [update_of_ne hcc] at hc'
    exact h c' before hc'

theorem Parked.move (h : Parked s) (hm : Move s a s' r) : Parked s' := by
  cases hm with
  | start hw => exact Parked.setStage h (by simp)
  | dequeue hw hd => exact h.dequeued hd
  | wake hw hd => exact (Parked.setStage (s := { s with workerCount := s.workerCount + 1 }) h (by simp)).dequeued hd
  | returned hw => exact Parked.setStage h (by simp)
  | @threw w j out what hw =>
    intro w' hw'
    by_cases hww : w' = w
    · subst hww
      simp at hw'
    · exact h w' (by simpa only [update_of_ne hww] using hw')
  | pass hw he => exact h.setStage (by simp)
  | @report w j x hw he herr => exact Parked.setStage h (by simp)
  | leave hw => exact Parked.setStage h (by simp)
  | push ha hroom => exact fun w hw => absurd hw (notifyWorkers_parked _ w)
  | ask hc => exact fun w hw => absurd hw (notifyWorkers_parked _ w)
  | _ => exact h

theorem Staying.move (h : Staying s) (hm : Move s a s' r) : Staying s' := by
  cases hm with
  | start hw => exact Staying.setStage h (by simp)
  | dequeue hw hd => exact h.dequeued hd
  | wake hw hd => exact (Staying.setStage (s := { s with workerCount := s.workerCount + 1 }) h (by simp)).dequeued hd
  | returned hw => exact Staying.setStage h (by simp)
  | @threw w j out what hw =>
    intro w' hw'
    by_cases hww : w' = w
    · subst hww
      simp at hw'
    · exact h w' (by simpa only [update_of_ne hww] using hw')
  | pass hw he => exact h.setStage (by simp)
  | @report w j x hw he herr => exact Staying.setStage h (by simp)
  | leave hw =>
    exact Staying.setStage h fun _ => h _ (.inl hw)
  | push ha hroom =>
    intro w hw
    apply h w
    rcases notifyWorkers_stage _ w with heq | ⟨heq, -⟩
    · rwa [State.setCaller, heq] at hw
    · rw [State.setCaller, heq] at hw
      simp at hw
  | ask hc => exact fun _ _ => rfl
  | _ => exact h

theorem Blocked.move (h : Blocked s) (hm : Move s a s' r) (hclean : ¬Strands s a) : Blocked s' := by
  cases hm with
  | @dequeue w s' hw hd =>
    exact h.dequeued hd fun he hp c target hc => hclean ⟨⟨w, rfl⟩, he, hp, c, target, hc⟩
  | @wake w b s' hw hd =>
    exact Blocked.dequeued (s := s.awake w) h hd fun he hp c target hc => hclean ⟨⟨w, rfl⟩, he, hp, c, target, hc⟩
  | block ha hfull => exact h.setCaller fun _ _ => hfull
  | @push a c target ha hroom =>
    exact Blocked.setCaller (s := (s.pushed target).notifyWorkers)
      (fun c' target' hc => Nat.le_succ_of_le (h c' target' hc)) (by simp)
  | doze => exact h.setCaller (by simp)
  | waited => exact Blocked.setCaller (s := s.throwIfError) h (by simp)
  | ask => exact Blocked.setCaller (s := s.requestJoin) h (by simp)
  | joined => exact h.setCaller (by simp)
  | copy => exact h.setCaller (by simp)
  | @reset c before x hc => exact Blocked.setCaller h (by simp)
  | _ => exact h

theorem maxJobs_move (hm : Move s a s' r) : s'.maxJobs = s.maxJobs := by
  cases hm with
  | dequeue hw hd => cases hd <;> rfl
  | wake hw hd => cases hd <;> rfl
  | _ => rfl

/-- After the queue was thrown away under a parked caller, that caller sleeps before an empty queue. -/
theorem Strands.lost (h : Strands s a) (hm : Move s a s' r) (hmax : 0 < s.maxJobs) : ¬Blocked s' := by
  obtain ⟨⟨w, rfl⟩, he, hp, c, target, hc⟩ := h
  have hlost : ∀ {s1 : State n κ E}, s1.err = s.err → s1.pending = s.pending → s1.callers = s.callers →
      s1.maxJobs = s.maxJobs → Dequeued s1 w s' → ¬Blocked s' := by
    intro s1 hse hsp hsc hsm hd hb
    cases hd with
    | finish hp' => exact hp (hsp.symm.trans hp')
    | park hp' => exact hp (hsp.symm.trans hp')
    | discard =>
      have hle : s1.maxJobs ≤ 0 := hb c target ((congrFun hsc c).trans hc)
      omega
    | take hp' he' => exact he (hse.symm.trans he')
  cases hm with
  | dequeue hw hd => exact hlost rfl rfl rfl rfl hd
  | wake hw hd => exact hlost (rfl : (s.awake w).err = s.err) rfl rfl rfl hd
  | block ha => cases ha
  | push ha => cases ha
  | doze ha => cases ha
  | waited ha => cases ha

omit [DecidableEq κ] in
theorem noLostWakeup_make {maxRunning maxJobs : Nat} {s0 : State maxRunning κ E}
    (h : State.make κ E maxRunning maxJobs = .ok s0) : NoLostWakeup s0 ∧ 0 < s0.maxJobs := by
  unfold State.make at h
  split at h
  · cases h
  · split at h
    · cases h
    · next _ hj =>
      cases h
      exact ⟨⟨fun c target hc => (by cases hc), fun w hw => (by cases hw)⟩, Nat.pos_of_ne_zero hj⟩

/-- Along any run, both halves hold in every state exactly if no step throws the queue away under a parked caller. -/
theorem throughout_noLostWakeup (hmax : 0 < s.maxJobs) (h : NoLostWakeup s) (as : List (Act n κ E)) :
    Throughout State.next NoLostWakeup as s ↔ Along State.next (fun s a => ¬Strands s a) as s := by
  induction as generalizing s with
  | nil => exact ⟨fun _ => trivial, fun _ => h⟩
  | cons a as ih =>
    constructor
    · rintro ⟨-, hall⟩ s' hs
      obtain ⟨r, hm⟩ := move_of_next hs
      have hnext := hall s' hs
      refine ⟨fun hstrand => hstrand.lost hm hmax hnext.first.1, ?_⟩
      exact (ih (by rwa [maxJobs_move hm]) hnext.first).1 hnext
    · intro halong
      refine ⟨h, fun s' hs => ?_⟩
      obtain ⟨r, hm⟩ := move_of_next hs
      obtain ⟨hclean, hrest⟩ := halong s' hs
      exact (ih (by rwa [maxJobs_move hm]) ⟨h.1.move hm hclean, h.2.move hm⟩).2 hrest

/-- **No lost wake-up, exactly.** In every state of a run, a caller asleep in `add` has a full queue before it and a
sleeping thread an empty one and no request to end, if and only if no thread ever throws the queue away while a caller
sleeps in `add`. -/
theorem no_lost_wakeup_iff {maxRunning maxJobs : Nat} {s0 : State maxRunning κ E}
    (hmake : State.make κ E maxRunning maxJobs = .ok s0) (as : List (Act maxRunning κ E)) :
    Throughout State.next NoLostWakeup as s0 ↔ Along State.next (fun s a => ¬Strands s a) as s0 :=
  throughout_noLostWakeup (noLostWakeup_make hmake).2 (noLostWakeup_make hmake).1 as

/-- The second caller finds the one place taken, sleeps, is woken and queues its job; the thread runs both and parks. -/
def twoJobs : List (Act 1 Bool Unit) :=
  [.start 0, .call false (.add true), .call true (.add true), .dequeue 0, .resume true, .run 0 none, .complete 0,
    .dequeue 0, .run 0 none, .complete 0, .dequeue 0]

theorem no_lost_wakeup_twoJobs : ∃ s0 s : State 1 Bool Unit, State.make Bool Unit 1 1 = .ok s0 ∧
    Machine.run State.next twoJobs s0 = some s ∧ s.finished = [0, 1] ∧ Throughout State.next NoLostWakeup twoJobs s0 := by
  refine ⟨_, _, rfl, rfl, rfl, (@no_lost_wakeup_iff Bool Unit _ 1 1 _ rfl _).2 ?_⟩
  -- no job throws, so the queue is never thrown away
  iterate 11
    rintro _ ⟨⟩
    refine ⟨fun h => h.2.1 rfl, ?_⟩
  trivial

/-- A queue of one place. The first job throws; a second one is queued and a third caller blocks before the thread
says so; the thread throws the queue away, and the caller sleeps on before an empty queue. -/
theorem lost_wakeup : ∃ s0 s : State 1 Bool Unit, State.make Bool Unit 1 1 = .ok s0 ∧
    run State.next [.start 0, .call false (.add true), .dequeue 0, .call false (.add true), .call true (.add true),
      .run 0 (some ()), .complete 0, .dequeue 0] s0 = some s ∧
    s.callers true = .adding true false ∧ s.pendingSize = 0 ∧ s.maxJobs = 1 ∧ ¬NoLostWakeup s := by
  refine ⟨_, _, rfl, rfl, rfl, rfl, rfl, fun h => ?_⟩
  exact absurd (h.1 true true rfl) (by decide)

/-! ## A call of `wait` comes to an end -/

theorem Awaits.move (h : Awaits s) (hcounts : Counts s) (hstay : Staying s) (hm : Move s a s' r) : Awaits s' := by
  cases hm with
  | start hw => exact fun _ _ _ => .inl (Nat.succ_pos _)
  | dequeue hw hd => exact h.dequeued hcounts hw hd
  | @wake w b s' hw hd =>
    exact Awaits.dequeued (s := s.awake w) (fun _ _ _ => .inl (Nat.succ_pos _)) (hcounts.awake hw) (awake_stage s w) hd
  | leave hw => exact fun _ _ _ => .inr (.inr (hstay _ (.inl hw)))
  | push ha hroom => exact fun _ _ _ => .inr (.inl (List.append_ne_nil_of_right_ne_nil _ (List.cons_ne_nil _ _)))
  | ask hc => exact fun _ _ _ => .inr (.inr rfl)
  | block => exact h.setCaller (by simp)
  | doze ha hbusy => exact h.setCaller fun _ _ => hbusy.imp_right .inl
  | waited => exact Awaits.setCaller (s := s.throwIfError) h (by simp)
  | joined => exact h.setCaller (by simp)
  | copy => exact h.setCaller (by simp)
  | @reset c before x hc => exact Awaits.setCaller h (by simp)
  | _ => exact h

/-- How many steps a thread has before it parks, if it finds nothing more in the queue. -/
def Stage.effort : Stage → Nat
  | unborn => 3
  | ready => 2
  | parked notified => if notified then 2 else 0
  | running _ => 4
  | completing _ => 3
  | leaving => 1
  | gone => 0

omit [DecidableEq κ] in
/-- A bound on the steps the threads can take by themselves. -/
def State.effort (s : State n κ E) : Nat := 3 * s.pending.length + ∑ w, (s.workers w).stage.effort

/-- A thread of the pool takes a step for which it needs no spurious wake-up. -/
def Driven (s : State n κ E) : Act n κ E → Prop
  | .start _ => True
  | .dequeue w => (s.workers w).stage ≠ .parked false
  | .run _ _ => True
  | .complete _ => True
  | .leave _ => True
  | .call _ _ => False
  | .resume _ => False

variable (s w) in
omit [DecidableEq κ] in
theorem effort_setStage (g : Stage) :
    (s.setStage w g).effort + (s.workers w).stage.effort = s.effort + g.effort := by
  have hsum := sum_update (fun y : Worker E => y.stage.effort) s.workers w ⟨g, (s.workers w).e⟩
  unfold State.effort State.setStage
  dsimp only at hsum ⊢
  omega

omit [DecidableEq κ] in
theorem effort_dequeued (hw : (s.workers w).stage = .ready) (hd : Dequeued s w s') :
    s'.effort < s.effort := by
  cases hd with
  | finish hp hj =>
    have hs := effort_setStage s w .leaving
    rw [hw] at hs
    simp only [Stage.effort] at hs
    omega
  | park hp hj cs hcs hdone =>
    have hs := effort_setStage ({ s with workerCount := s.workerCount - 1, callers := cs } : State n κ E) w (.parked false)
    simp only [hw, Stage.effort, Bool.false_eq_true, if_false] at hs
    change _ + 2 = s.effort + 0 at hs
    omega
  | @discard j js x hp he =>
    have hs := effort_setStage ({ s with pending := [], pendingSize := 0 } : State n κ E) w
      (if s.joinRequested then .leaving else .ready)
    have hg : (if s.joinRequested then Stage.leaving else Stage.ready).effort ≤ 2 := by
      split <;> simp [Stage.effort]
    have hq : ({ s with pending := [], pendingSize := 0 } : State n κ E).effort + 3 * (js.length + 1) = s.effort := by
      simp only [State.effort, hp, List.length_nil, List.length_cons]
      omega
    simp only [hw] at hs
    simp only [Stage.effort] at hs hg
    omega
  | @take j js hp he cs hcs hspace =>
    have hs := effort_setStage (s.taken j js cs) w (.running j)
    have hq : (s.taken j js cs).effort + 3 = s.effort := by
      simp only [State.effort, hp, List.length_cons]
      omega
    simp only [hw] at hs
    simp only [Stage.effort] at hs
    omega

theorem Driven.effort_lt (h : Driven s a) (hm : Move s a s' r) : s'.effort < s.effort := by
  cases hm with
  | @start w hw =>
    have hs := effort_setStage ({ s with workerCount := s.workerCount + 1 } : State n κ E) w .ready
    simp only [hw, Stage.effort] at hs
    change _ + 3 = s.effort + 2 at hs
    omega
  | dequeue hw hd => exact effort_dequeued hw hd
  | @wake w b s' hw hd =>
    have hlt := effort_dequeued (awake_stage s w) hd
    have hs := effort_setStage ({ s with workerCount := s.workerCount + 1 } : State n κ E) w .ready
    cases b with
    | false => exact absurd hw h
    | true =>
      simp only [hw, Stage.effort, if_true] at hs
      change (s.awake w).effort + 2 = s.effort + 2 at hs
      omega
  | @returned w j out hw =>
    have hs := effort_setStage s w (.completing j)
    simp only [hw, Stage.effort] at hs
    show (s.setStage w (.completing j)).effort < _
    omega
  | @threw w j out what hw =>
    have hs := sum_update (fun y : Worker E => y.stage.effort) s.workers w ⟨.completing j, some ⟨j.ticket, what⟩⟩
    simp only [hw, Stage.effort] at hs
    unfold State.effort
    simp only [Stage.effort]
    omega
  | @pass w j hw he =>
    have hs := effort_setStage s w .ready
    simp only [hw, Stage.effort] at hs
    omega
  | @report w j x hw he herr =>
    have hs := effort_setStage ({ s with err := some x } : State n κ E) w .ready
    simp only [hw, Stage.effort] at hs
    change _ + 3 = s.effort + 2 at hs
    omega
  | @leave w hw =>
    have hs := effort_setStage ({ s with workerCount := s.workerCount - 1 } : State n κ E) w .gone
    simp only [hw, Stage.effort] at hs
    change _ + 1 = s.effort + 0 at hs
    omega
  | block ha => cases ha <;> exact absurd h id
  | push ha => cases ha <;> exact absurd h id
  | doze ha => cases ha <;> exact absurd h id
  | waited ha => cases ha <;> exact absurd h id
  | _ => exact absurd h id

/-- Whatever order the pool's threads step in, they come to rest, and then the call of `wait` that `c` made has been
notified and returns. -/
inductive Settles (c : κ) : State n κ E → Prop
  | returns {s s' : State n κ E} {before : Nat} {ret : Return E}
      (hrest : ∀ a s₁, Driven s a → s.next a ≠ some s₁) (hc : s.callers c = .waiting before true)
      (hstep : s.step (.resume c) = some (s', some ret)) : Settles c s
  | goes {s : State n κ E} (hsome : ∃ a s₁, Driven s a ∧ s.next a = some s₁)
      (hall : ∀ a s₁, Driven s a → s.next a = some s₁ → Settles c s₁) : Settles c s

/-- What a caller in `wait` may rely on. -/
structure Steady (s : State n κ E) : Prop where
  counts : Counts s
  parked : Parked s
  awaits : Awaits s
  staying : Staying s

theorem Steady.move (h : Steady s) (hm : Move s a s' r) : Steady s' :=
  ⟨h.counts.move hm, h.parked.move hm, h.awaits.move h.counts h.staying hm, h.staying.move hm⟩

omit [DecidableEq κ] in
theorem Steady.make {maxRunning maxJobs : Nat} {s0 : State maxRunning κ E}
    (h : State.make κ E maxRunning maxJobs = .ok s0) : Steady s0 := by
  refine ⟨(Inv.make h).counts, (noLostWakeup_make h).1.2, ?_, ?_⟩
  all_goals
    unfold State.make at h
    split at h
    · cases h
    · split at h
      · cases h
      · cases h
        intro x
        simp

/-- A thread that is not asleep, in a pool nobody asked to end, has a step. -/
theorem exists_driven (hstay : Staying s) (hjoin : s.joinRequested = false)
    (hw : (s.workers w).stage ≠ .parked false) : ∃ a s1, Driven s a ∧ s.next a = some s1 := by
  suffices h : ∃ a, Driven s a ∧ (s.next a).isSome = true by
    obtain ⟨a, hd, hsome⟩ := h
    obtain ⟨s1, hn⟩ := Option.isSome_iff_exists.1 hsome
    exact ⟨a, s1, hd, hn⟩
  cases hg : (s.workers w).stage with
  | unborn => exact ⟨.start w, trivial, by simp [State.next, State.step, hg]⟩
  | ready => exact ⟨.dequeue w, hw, by simp [State.next, State.step, hg]⟩
  | parked b => exact ⟨.dequeue w, hw, by simp [State.next, State.step, hg]⟩
  | running j => exact ⟨.run w none, trivial, by simp [State.next, State.step, hg]⟩
  | completing j => exact ⟨.complete w, trivial, by simp [State.next, State.step, hg]⟩
  | leaving =>
    have hj := hstay w (.inl hg)
    rw [hjoin] at hj
    cases hj
  | gone =>
    have hj := hstay w (.inr hg)
    rw [hjoin] at hj
    cases hj

variable {before : Nat}

/-- A thread's step leaves a caller in `wait` there. -/
theorem Driven.waiting (h : Driven s a) (hm : Move s a s' r) {b : Bool}
    (hc : s.callers c = .waiting before b) : (∃ b', s'.callers c = .waiting before b') ∧ s'.joinRequested = s.joinRequested := by
  have hrouse : ∀ {y : Caller E}, (s.callers c).Roused y → ∃ b', y = .waiting before b' := by
    intro y hy
    rcases hy with rfl | ⟨target, b', hx, rfl⟩ | ⟨before', b', hx, rfl⟩
    · exact ⟨b, hc⟩
    · rw [hc] at hx
      cases hx
    · rw [hc] at hx
      cases hx
      exact ⟨true, rfl⟩
  have hdeq : ∀ {s1 : State n κ E} {w : Fin n}, s1.callers = s.callers → s1.joinRequested = s.joinRequested →
      Dequeued s1 w s' → (∃ b', s'.callers c = .waiting before b') ∧ s'.joinRequested = s.joinRequested := by
    intro s1 w hsc hsj hd
    cases hd with
    | finish => exact ⟨⟨b, (congrFun hsc c).trans hc⟩, hsj⟩
    | park hp hj cs hcs => exact ⟨hrouse (congrFun hsc c ▸ hcs c), hsj⟩
    | discard => exact ⟨⟨b, (congrFun hsc c).trans hc⟩, hsj⟩
    | take hp he cs hcs => exact ⟨hrouse (congrFun hsc c ▸ hcs c), hsj⟩
  cases hm with
  | dequeue hw hd => exact hdeq rfl rfl hd
  | wake hw hd => exact hdeq (rfl : (s.awake _).callers = s.callers) rfl hd
  | block ha => cases ha <;> exact absurd h id
  | push ha => cases ha <;> exact absurd h id
  | doze ha => cases ha <;> exact absurd h id
  | waited ha => cases ha <;> exact absurd h id
  | start => exact ⟨⟨b, hc⟩, rfl⟩
  | returned => exact ⟨⟨b, hc⟩, rfl⟩
  | threw => exact ⟨⟨b, hc⟩, rfl⟩
  | pass => exact ⟨⟨b, hc⟩, rfl⟩
  | report => exact ⟨⟨b, hc⟩, rfl⟩
  | leave => exact ⟨⟨b, hc⟩, rfl⟩
  | _ => exact absurd h id

/-- With every thread asleep and notified of nothing, a caller in `wait` knows, and returns. -/
theorem Steady.returns (h : Steady s) (hpos : 0 < n) (hjoin : s.joinRequested = false)
    (hrest : ∀ w, (s.workers w).stage = .parked false) {b : Bool}
    (hc : s.callers c = .waiting before b) :
    s.callers c = .waiting before true ∧ ∃ s' ret, s.step (.resume c) = some (s', some ret) := by
  have hp : s.pending = [] := (h.parked ⟨0, hpos⟩ (hrest _)).1
  have hcount : s.workerCount = 0 := by
    rw [h.counts, State.counted, Finset.card_eq_zero, Finset.filter_eq_empty_iff]
    intro w _
    rw [hrest w]
    simp [Stage.counted]
  have hb : b = true := by
    cases b with
    | true => rfl
    | false =>
      rcases h.awaits c before hc with hpos' | hne | hj
      · omega
      · exact absurd hp hne
      · rw [hjoin] at hj
        cases hj
  subst hb
  simp [State.step, hc, State.waitLoop, hcount, hp]

/-- **A call of `wait` returns** once the callers are quiet, whatever the jobs do. -/
theorem Steady.settles (hpos : 0 < n) :
    ∀ (m : Nat) {s : State n κ E}, s.effort < m → Steady s → s.joinRequested = false →
      (∃ b, s.callers c = .waiting before b) → Settles c s := by
  intro m
  induction m with
  | zero => exact fun h => absurd h (Nat.not_lt_zero _)
  | succ m ih =>
    rintro s hlt hs hjoin ⟨b, hc⟩
    by_cases hsome : ∃ a s1, Driven s a ∧ s.next a = some s1
    · refine .goes hsome fun a s1 hd hn => ?_
      obtain ⟨r, hm⟩ := move_of_next hn
      obtain ⟨hc1, hj1⟩ := hd.waiting hm hc
      exact ih (Nat.lt_of_lt_of_le (hd.effort_lt hm) (Nat.le_of_lt_succ hlt)) (hs.move hm) (hj1.trans hjoin) hc1
    · have hrest : ∀ w, (s.workers w).stage = .parked false := by
        intro w
        by_contra hw
        exact hsome (exists_driven hs.staying hjoin hw)
      obtain ⟨hc', s', ret, hstep⟩ := hs.returns hpos hjoin hrest hc
      exact .returns (fun a s1 hd hn => hsome ⟨a, s1, hd, hn⟩) hc' hstep

end

end Sbmt.Search.JobPool
