import Sbmt.Search.JobPool

/-!
# What holds over every schedule of a thread_pool

`Counts` and `Tickets` hold in every state whatever the jobs do. `Quiet` holds
as long as no job has thrown: then a job that was queued is in the queue, held
by a thread, or over, and a call of `wait` that ends leaves the last of these.
-/

namespace Sbmt.Search.JobPool

open Sbmt.Lib Sbmt.Lib.Machine List Function

variable {n : Nat} {κ E : Type*} {s s' : State n κ E}

/-! ## `worker_count` -/

/-- `worker_count` is the number of threads that are neither parked nor gone. -/
def Counts (s : State n κ E) : Prop := s.workerCount = s.counted

/-- A sum over the threads, after one of them has changed. -/
theorem sum_update (f : Worker E → Nat) (ws : Fin n → Worker E) (w : Fin n) (x : Worker E) :
    ∑ w', f (update ws w x w') + f (ws w) = ∑ w', f (ws w') + f x := by
  rw [← Finset.add_sum_erase _ _ (Finset.mem_univ w), ← Finset.add_sum_erase Finset.univ (fun w' => f (ws w'))
    (Finset.mem_univ w)]
  have hrest : ∑ w' ∈ Finset.univ.erase w, f (update ws w x w') =
      ∑ w' ∈ Finset.univ.erase w, f (ws w') := by
    apply Finset.sum_congr rfl
    intro w' hw'
    rw [update_of_ne (Finset.ne_of_mem_erase hw')]
  rw [update_self]
  omega

theorem counted_update (s : State n κ E) (w : Fin n) (x : Worker E) :
    ({ s with workers := update s.workers w x } : State n κ E).counted + (s.workers w).stage.counted.toNat =
      s.counted + x.stage.counted.toNat := by
  have hite : ∀ y : Worker E, (if y.stage.counted = true then 1 else 0) = y.stage.counted.toNat := by
    intro y
    cases y.stage.counted <;> rfl
  unfold State.counted
  simp only [Finset.card_filter, hite]
  exact sum_update (fun y => y.stage.counted.toNat) s.workers w x

theorem counted_setStage (s : State n κ E) (w : Fin n) (g : Stage) :
    (s.setStage w g).counted + (s.workers w).stage.counted.toNat = s.counted + g.counted.toNat :=
  counted_update s w ⟨g, (s.workers w).e⟩

variable {w : Fin n}

theorem counted_pos (hw : (s.workers w).stage.counted = true) : 0 < s.counted :=
  Finset.card_pos.2 ⟨w, Finset.mem_filter.2 ⟨Finset.mem_univ w, hw⟩⟩

theorem counted_notifyWorkers (s : State n κ E) : s.notifyWorkers.counted = s.counted := by
  unfold State.counted State.notifyWorkers
  congr 1
  apply Finset.filter_congr
  intro w _
  rcases hw : s.workers w with ⟨g, e⟩
  cases g <;> simp [hw, Stage.counted]

theorem Counts.awake (h : Counts s) {b : Bool} (hw : (s.workers w).stage = .parked b) : Counts (s.awake w) := by
  have hc := counted_setStage ({ s with workerCount := s.workerCount + 1 } : State n κ E) w .ready
  simp only [hw, Stage.counted, Bool.toNat_false, Bool.toNat_true] at hc
  exact (congrArg (· + 1) h).trans hc.symm

theorem Counts.dequeued (h : Counts s) (hw : (s.workers w).stage = .ready) (hd : Dequeued s w s') : Counts s' := by
  unfold Counts at h ⊢
  cases hd with
  | finish hp hj =>
    have hc := counted_setStage s w .leaving
    rw [hw] at hc
    exact h.trans (Nat.add_right_cancel hc).symm
  | park hp hj cs hcs hdone =>
    have hc := counted_setStage ({ s with workerCount := s.workerCount - 1, callers := cs } : State n κ E) w (.parked false)
    simp only [hw, Stage.counted, Bool.toNat_true, Bool.toNat_false] at hc
    show s.workerCount - 1 = _
    change _ + 1 = s.counted + 0 at hc
    omega
  | discard hp he =>
    have hc := counted_setStage ({ s with pending := [], pendingSize := 0 } : State n κ E) w
      (if s.joinRequested then .leaving else .ready)
    have hg : (if s.joinRequested then Stage.leaving else Stage.ready).counted = true := by
      split <;> rfl
    simp only [hw, hg] at hc
    exact h.trans (Nat.add_right_cancel hc).symm
  | @take j js hp he cs hcs hspace =>
    have hc := counted_setStage (s.taken j js cs) w (.running j)
    simp only [hw] at hc
    exact h.trans (Nat.add_right_cancel hc).symm

variable (s w) in
theorem awake_stage : ((s.awake w).workers w).stage = .ready := by
  rw [State.awake, setStage_stage, if_pos rfl]

section
variable [DecidableEq κ] {a : Act n κ E} {r : Option (Return E)}

theorem Counts.move (h : Counts s) (hm : Move s a s' r) : Counts s' := by
  cases hm with
  | @start w hw =>
    have hc := counted_setStage ({ s with workerCount := s.workerCount + 1 } : State n κ E) w .ready
    simp only [hw, Stage.counted, Bool.toNat_false, Bool.toNat_true] at hc
    exact (congrArg (· + 1) h).trans hc.symm
  | dequeue hw hd => exact h.dequeued hw hd
  | wake hw hd => exact (h.awake hw).dequeued (awake_stage s _) hd
  | @returned w j out hw =>
    have hc := counted_setStage s w (.completing j)
    rw [hw] at hc
    exact h.trans (Nat.add_right_cancel hc).symm
  | @threw w j out what hw =>
    have hc := counted_update s w ⟨.completing j, some ⟨j.ticket, what⟩⟩
    rw [hw] at hc
    exact h.trans (Nat.add_right_cancel hc).symm
  | @pass w j hw he =>
    have hc := counted_setStage s w .ready
    rw [hw] at hc
    exact h.trans (Nat.add_right_cancel hc).symm
  | @report w j x hw he herr =>
    have hc := counted_setStage ({ s with err := some x } : State n κ E) w .ready
    simp only [hw] at hc
    exact h.trans (Nat.add_right_cancel hc).symm
  | @leave w hw =>
    have hc := counted_setStage ({ s with workerCount := s.workerCount - 1 } : State n κ E) w .gone
    simp only [hw, Stage.counted, Bool.toNat_true, Bool.toNat_false] at hc
    unfold Counts at h ⊢
    show s.workerCount - 1 = _
    change _ + 1 = s.counted + 0 at hc
    omega
  | push ha hroom => exact h.trans (counted_notifyWorkers s).symm
  | ask hc => exact h.trans (counted_notifyWorkers s).symm
  | refused => exact h
  | block => exact h
  | doze => exact h
  | waited => exact h
  | joined => exact h
  | copy => exact h
  | reset => exact h

end

/-! ## The numbers the jobs were queued under -/

/-- Where the jobs are. Numbers go from the queue to the record of started jobs in the order they were given. -/
structure Tickets (s : State n κ E) : Prop where
  size : s.pendingSize = s.pending.length
  order : (s.started ++ s.pending.map Job.ticket).Pairwise (· < ·)
  bound : ∀ t ∈ s.started ++ s.pending.map Job.ticket, t < s.accepted
  busy : ∀ w j, (s.workers w).stage.job = some j → j.ticket ∈ s.started
  apart : ∀ w w' j j', (s.workers w).stage.job = some j → (s.workers w').stage.job = some j' →
    j.ticket = j'.ticket → w = w'
  settled : ∀ t ∈ s.started, t ∈ s.finished ∨ ∃ w j, (s.workers w).stage = .running j ∧ j.ticket = t
  ran : ∀ t ∈ s.finished, t ∈ s.started
  live : ∀ w j, (s.workers w).stage = .running j → j.ticket ∉ s.finished
  asked : ∀ c, (s.callers c).before ≤ s.accepted

variable {j : Job} {g : Stage}

theorem job_of_running (h : g = .running j) : g.job = some j := by
  rw [h]
  rfl

section

variable (h : Tickets s)
include h

/-- A thread that is not in the middle of a job, and goes where it holds none, leaves the numbers alone. -/
theorem Tickets.idle (hold : ∀ j, (s.workers w).stage ≠ .running j)
    (hnew : g.job = none) : Tickets (s.setStage w g) where
  size := h.size
  order := h.order
  bound := h.bound
  busy w' j hj := by
    rw [setStage_stage] at hj
    split at hj
    · rw [hnew] at hj
      cases hj
    · exact h.busy w' j hj
  apart w1 w2 j1 j2 h1 h2 := by
    rw [setStage_stage] at h1 h2
    split at h1
    · rw [hnew] at h1
      cases h1
    · split at h2
      · rw [hnew] at h2
        cases h2
      · exact h.apart w1 w2 j1 j2 h1 h2
  settled t ht := by
    rcases h.settled t ht with hfin | ⟨w', j, hrun, hj⟩
    · exact .inl hfin
    · refine .inr ⟨w', j, ?_, hj⟩
      rw [setStage_stage, if_neg, hrun]
      rintro rfl
      exact hold j hrun
  ran := h.ran
  live w' j hrun := by
    rw [setStage_stage] at hrun
    split at hrun
    · rw [hrun] at hnew
      cases hnew
    · exact h.live w' j hrun
  asked := h.asked

theorem Tickets.take {js : List Job} (hw : (s.workers w).stage = .ready) (hp : s.pending = j :: js) :
    Tickets (({ s with
      pending := js, pendingSize := s.pendingSize - 1, started := s.started ++ [j.ticket] }
        : State n κ E).setStage w (.running j)) := by
  have horder : ((s.started ++ [j.ticket]) ++ js.map Job.ticket).Pairwise (· < ·) := by
    simpa [hp] using h.order
  have hnew : ∀ w' j', (s.workers w').stage.job = some j' → j'.ticket ≠ j.ticket := by
    intro w' j' hj'
    have hlt := (pairwise_append.1 (pairwise_append.1 horder).1).2.2 _ (h.busy w' j' hj') _
      (mem_singleton_self _)
    exact Nat.ne_of_lt hlt
  constructor
  · rw [h.size, hp]
    rfl
  · exact horder
  · intro t ht
    exact h.bound t (by simpa [State.setStage, hp] using ht)
  · intro w' j' hj'
    show j'.ticket ∈ s.started ++ [j.ticket]
    rw [setStage_stage] at hj'
    split at hj'
    · cases hj'
      simp
    · exact mem_append_left _ (h.busy w' j' hj')
  · intro w1 w2 j1 j2 h1 h2 heq
    rw [setStage_stage] at h1 h2
    split at h1
    · next hw1 =>
      split at h2
      · next hw2 => rw [hw1, hw2]
      · cases h1
        exact absurd heq.symm (hnew w2 j2 h2)
    · split at h2
      · cases h2
        exact absurd heq (hnew w1 j1 h1)
      · exact h.apart w1 w2 j1 j2 h1 h2 heq
  · intro t ht
    rcases mem_append.1 (show t ∈ s.started ++ [j.ticket] from ht) with ht | ht
    · rcases h.settled t ht with hfin | ⟨w', j', hrun, hj'⟩
      · exact .inl hfin
      · refine .inr ⟨w', j', ?_, hj'⟩
        rw [setStage_stage, if_neg, hrun]
        rintro rfl
        rw [hw] at hrun
        cases hrun
    · refine .inr ⟨w, j, ?_, (mem_singleton.1 ht).symm⟩
      rw [setStage_stage, if_pos rfl]
  · intro t ht
    exact mem_append_left _ (h.ran t ht)
  · intro w' j' hrun hfin
    rw [setStage_stage] at hrun
    split at hrun
    · cases hrun
      have hlt := (pairwise_append.1 (pairwise_append.1 horder).1).2.2 _ (h.ran _ hfin) _
        (mem_singleton_self _)
      exact Nat.lt_irrefl _ hlt
    · exact h.live w' j' hrun hfin
  · exact h.asked

theorem Tickets.discard : Tickets { s with pending := [], pendingSize := 0 } :=
  { h with
    size := rfl
    order := by
      show (s.started ++ []).Pairwise (· < ·)
      rw [append_nil]
      exact (pairwise_append.1 h.order).1
    bound t ht := by
      rw [map_nil, append_nil] at ht
      exact h.bound t (mem_append_left _ ht) }

/-- The job a thread holds has ended. -/
theorem Tickets.ended (hw : (s.workers w).stage = .running j) (e : Option (Thrown E)) (thrown : List (Thrown E)) :
    Tickets { s with
      workers := update s.workers w ⟨.completing j, e⟩
      finished := s.finished ++ [j.ticket]
      thrown := thrown } := by
  have hjob : ∀ w', (update s.workers w ⟨.completing j, e⟩ w').stage.job = (s.workers w').stage.job := by
    intro w'
    by_cases hww : w' = w
    · subst hww
      simp [hw, Stage.job]
    · rw [update_of_ne hww]
  constructor
  · exact h.size
  · exact h.order
  · exact h.bound
  · intro w' j' hj'
    exact h.busy w' j' ((hjob w').symm.trans hj')
  · intro w1 w2 j1 j2 h1 h2
    exact h.apart w1 w2 j1 j2 ((hjob w1).symm.trans h1) ((hjob w2).symm.trans h2)
  · intro t ht
    rcases h.settled t ht with hfin | ⟨w', j', hrun, hj'⟩
    · exact .inl (mem_append_left _ hfin)
    · by_cases hww : w' = w
      · subst hww
        rw [hw] at hrun
        cases hrun
        exact .inl (mem_append_right _ (by simp [hj']))
      · refine .inr ⟨w', j', ?_, hj'⟩
        show (update s.workers w ⟨.completing j, e⟩ w').stage = _
        rw [update_of_ne hww, hrun]
  · intro t ht
    rcases mem_append.1 ht with ht | ht
    · exact h.ran t ht
    · rw [mem_singleton.1 ht]
      exact h.busy w j (job_of_running hw)
  · intro w' j' hrun hfin
    by_cases hww : w' = w
    · subst hww
      simp at hrun
    · replace hrun : (s.workers w').stage = .running j' := by
        simpa only [update_of_ne hww] using hrun
      rcases mem_append.1 hfin with hfin | hfin
      · exact h.live w' j' hrun hfin
      · exact hww (h.apart w' w j' j (job_of_running hrun) (job_of_running hw) (mem_singleton.1 hfin))
  · exact h.asked

theorem Tickets.push (target : Bool) : Tickets (s.pushed target) :=
  { h with
    size := by simp [h.size]
    order := by
      rw [map_append, ← append_assoc, pairwise_append]
      refine ⟨h.order, pairwise_singleton _ _, ?_⟩
      intro t ht t' ht'
      rw [mem_singleton.1 ht']
      exact h.bound t ht
    bound t ht := by
      rw [map_append, ← append_assoc, mem_append] at ht
      rcases ht with ht | ht
      · exact Nat.lt_succ_of_lt (h.bound t ht)
      · rw [mem_singleton.1 ht]
        exact Nat.lt_succ_self _
    asked c := Nat.le_succ_of_le (h.asked c) }

variable (s w) in
omit h in
theorem notifyWorkers_stage : (s.notifyWorkers.workers w).stage = (s.workers w).stage ∨
    (s.notifyWorkers.workers w).stage = .parked true ∧ ∃ b, (s.workers w).stage = .parked b := by
  rcases hw : s.workers w with ⟨g, e⟩
  cases g <;> simp [State.notifyWorkers, hw]

variable (s w) in
omit h in
theorem notifyWorkers_job :
    (s.notifyWorkers.workers w).stage.job = (s.workers w).stage.job := by
  rcases notifyWorkers_stage s w with h | ⟨h, b, hb⟩
  · rw [h]
  · rw [h, hb]
    rfl

theorem Tickets.notifyWorkers : Tickets s.notifyWorkers :=
  { h with
    busy w j hj := h.busy w j ((notifyWorkers_job s w).symm.trans hj)
    apart w w' j j' hj hj' := h.apart w w' j j' ((notifyWorkers_job s w).symm.trans hj)
      ((notifyWorkers_job s w').symm.trans hj')
    settled t ht := by
      rcases h.settled t ht with hfin | ⟨w, j, hrun, hj⟩
      · exact .inl hfin
      · refine .inr ⟨w, j, ?_, hj⟩
        rcases notifyWorkers_stage s w with hw | ⟨hw, b, hb⟩
        · rw [hw, hrun]
        · rw [hrun] at hb
          cases hb
    live w j hrun := by
      rcases notifyWorkers_stage s w with hw | ⟨hw, b, hb⟩
      · exact h.live w j (hw.symm.trans hrun)
      · rw [hw] at hrun
        cases hrun }

theorem Tickets.roused {cs : κ → Caller E} (hcs : ∀ c, (s.callers c).Roused (cs c)) :
    Tickets { s with callers := cs } :=
  { h with asked := fun c => (hcs c).before.trans_le (h.asked c) }

theorem Tickets.dequeued (hw : (s.workers w).stage = .ready) (hd : Dequeued s w s') : Tickets s' := by
  have hjob : ∀ j, (s.workers w).stage ≠ .running j := by simp [hw]
  cases hd with
  | finish hp hj => exact h.idle hjob rfl
  | park hp hj cs hcs hdone =>
    have hr := h.roused hcs
    exact Tickets.idle { hr with } hjob rfl
  | discard hp he =>
    refine h.discard.idle hjob ?_
    split <;> rfl
  | take hp he cs hcs hspace => exact (h.roused hcs).take hw hp

theorem Tickets.awake {b : Bool} (hw : (s.workers w).stage = .parked b) : Tickets (s.awake w) :=
  Tickets.idle { h with } (by simp [hw]) rfl

end

theorem Waits.before_le {c : κ} {before : Nat} {a : Act n κ E} (ha : Waits s c before a) (h : Tickets s) : before ≤ s.accepted := by
  cases ha with
  | call hc => exact le_rfl
  | resume hc =>
    have hle := h.asked c
    rwa [hc] at hle

section
variable [DecidableEq κ] {a : Act n κ E} {r : Option (Return E)}

theorem Tickets.setCaller (h : Tickets s) {c : κ} {x : Caller E} (hx : x.before ≤ s.accepted) :
    Tickets (s.setCaller c x) :=
  { h with
    asked := fun c' => by
      show (update s.callers c x c').before ≤ s.accepted
      by_cases hc : c' = c
      · subst hc
        rwa [update_self]
      · rw [update_of_ne hc]
        exact h.asked c' }

theorem Tickets.move (h : Tickets s) (hm : Move s a s' r) : Tickets s' := by
  cases hm with
  | start hw =>
    exact Tickets.idle { h with } (by simp [hw]) rfl
  | dequeue hw hd => exact h.dequeued hw hd
  | wake hw hd => exact (h.awake hw).dequeued (awake_stage s _) hd
  | returned hw => exact h.ended hw _ _
  | threw hw => exact h.ended hw _ _
  | pass hw he => exact h.idle (by simp [hw]) rfl
  | @report w j x hw he herr =>
    have hd : Tickets (s.setStage w .ready) := h.idle (by simp [hw]) rfl
    exact { hd with }
  | leave hw =>
    exact Tickets.idle { h with } (by simp [hw]) rfl
  | refused hc he => exact h
  | block ha hfull => exact h.setCaller (Nat.zero_le _)
  | @push a c target ha hroom => exact (h.push target).notifyWorkers.setCaller (Nat.zero_le _)
  | doze ha hbusy => exact h.setCaller (ha.before_le h)
  | waited ha hcount hp =>
    exact Tickets.setCaller (s := s.throwIfError)
      { h with } (Nat.zero_le _)
  | ask hc =>
    exact Tickets.setCaller (s := s.requestJoin)
      (Tickets.notifyWorkers { h with }) le_rfl
  | joined hc hgone hq => exact h.setCaller (Nat.zero_le _)
  | @copy c before x hc hgone he =>
    have hle := h.asked c
    rw [hc] at hle
    exact h.setCaller hle
  | @reset c before x hc =>
    exact Tickets.setCaller (s := { s with err := none, rethrown := s.rethrown ++ [x] }) { h with } (Nat.zero_le _)

end

/-! ## While no job throws -/

/-- Every exception is that of a job that has ended. -/
structure Filed (s : State n κ E) : Prop where
  mine : ∀ w x, (s.workers w).e = some x → x.job ∈ s.finished
  err : ∀ x, s.err = some x → x.job ∈ s.finished

/-- A thread whose job returned puts the exception of an earlier job into `err`. -/
def Relapses (s : State n κ E) (a : Act n κ E) : Prop :=
  ∃ w j x, a = .complete w ∧ (s.workers w).stage = .completing j ∧ (s.workers w).e = some x ∧
    x.job ≠ j.ticket ∧ s.err = none

/-- No job has thrown since the first `lo` jobs were queued, and none of the others was lost. -/
structure Calm (lo : Nat) (s : State n κ E) : Prop where
  err : s.err = none
  own : ∀ w j x, (s.workers w).stage = .completing j → (s.workers w).e = some x → x.job ≠ j.ticket
  kept : ∀ t, lo ≤ t → t < s.accepted → t ∈ s.started ++ s.pending.map Job.ticket

theorem Filed.dequeued (h : Filed s) (hd : Dequeued s w s') : Filed s' := by
  cases hd with
  | take => exact ⟨fun w' x hx => h.mine w' x (by simpa using hx), h.err⟩
  | _ => exact ⟨fun w' x hx => h.mine w' x (by simpa using hx), h.err⟩

variable (s w) in
theorem notifyWorkers_e : (s.notifyWorkers.workers w).e = (s.workers w).e := by
  rcases hw : s.workers w with ⟨g, e⟩
  cases g <;> simp [State.notifyWorkers, hw]

variable {lo : Nat}

section

variable (h : Calm lo s)
include h

theorem Calm.setStage (hg : ∀ j, g ≠ .completing j) : Calm lo (s.setStage w g) where
  err := h.err
  own w' j x hj hx := by
    rw [setStage_stage] at hj
    split at hj
    · exact absurd hj (hg j)
    · exact h.own w' j x hj (by simpa using hx)
  kept := h.kept

theorem Calm.dequeued (hd : Dequeued s w s') : Calm lo s' := by
  cases hd with
  | finish hp hj => exact h.setStage (by simp)
  | park hp hj cs hcs hdone =>
    exact Calm.setStage ⟨h.err, h.own, h.kept⟩ (by simp)
  | discard hp he =>
    rw [h.err] at he
    cases he
  | @take j js hp he cs hcs hspace =>
    refine Calm.setStage ⟨h.err, h.own, ?_⟩ (by simp)
    intro t hlo ht
    simpa [hp] using h.kept t hlo ht

theorem Calm.awake (w : Fin n) : Calm lo (s.awake w) :=
  Calm.setStage ⟨h.err, h.own, h.kept⟩ (by simp)

theorem Calm.notifyWorkers : Calm lo s.notifyWorkers where
  err := h.err
  own w j x hj hx := by
    rw [notifyWorkers_e] at hx
    rcases notifyWorkers_stage s w with hw | ⟨hw, b, hb⟩
    · exact h.own w j x (hw.symm.trans hj) hx
    · rw [hw] at hj
      cases hj
  kept := h.kept

theorem Calm.push (target : Bool) : Calm lo (s.pushed target) where
  err := h.err
  own := h.own
  kept t hlo ht := by
    rw [map_append, ← append_assoc, mem_append]
    rcases Nat.lt_or_eq_of_le (Nat.le_of_lt_succ ht) with ht | rfl
    · exact .inl (h.kept t hlo ht)
    · exact .inr (by simp)

/-- A job that is queued and neither in the queue nor in a thread's hands is over. -/
theorem Calm.settled (ht : Tickets s) (hp : s.pending = [])
    (hjob : ∀ w, (s.workers w).stage.job = none) : ∀ t, lo ≤ t → t < s.accepted → t ∈ s.finished := by
  intro t hlo hlt
  have hmem := h.kept t hlo hlt
  rw [hp, map_nil, append_nil] at hmem
  rcases ht.settled t hmem with hfin | ⟨w, j, hrun, hj⟩
  · exact hfin
  · have hnone := hjob w
    rw [hrun] at hnone
    cases hnone

end

theorem job_of_uncounted (h : g.counted = false) : g.job = none := by
  cases g with
  | running j => cases h
  | completing j => cases h
  | _ => rfl

theorem uncounted_of_zero (h : Counts s) (hzero : s.workerCount = 0) (w : Fin n) :
    (s.workers w).stage.counted = false := by
  by_contra hw
  have hpos := counted_pos (Bool.eq_true_of_not_eq_false hw)
  unfold Counts at h
  omega

section
variable [DecidableEq κ] {a : Act n κ E} {r : Option (Return E)}

theorem Filed.move (h : Filed s) (hm : Move s a s' r) : Filed s' := by
  cases hm with
  | dequeue hw hd => exact h.dequeued hd
  | @wake w b s' hw hd =>
    exact Filed.dequeued (s := s.awake w) ⟨fun w' x hx => h.mine w' x (by simpa [State.awake] using hx), h.err⟩ hd
  | returned hw =>
    exact ⟨fun w' x hx => mem_append_left _ (h.mine w' x (by simpa using hx)),
      fun x hx => mem_append_left _ (h.err x hx)⟩
  | @threw w j out what hw =>
    constructor
    · intro w' x hx
      by_cases hww : w' = w
      · subst hww
        simp only [update_self, Option.some.injEq] at hx
        subst hx
        exact mem_append_right _ (mem_singleton_self _)
      · simp only [update_of_ne hww] at hx
        exact mem_append_left _ (h.mine w' x hx)
    · exact fun x hx => mem_append_left _ (h.err x hx)
  | report hw he herr =>
    refine ⟨fun w' x hx => h.mine w' x (by simpa using hx), fun x hx => ?_⟩
    cases hx
    exact h.mine _ _ he
  | push ha hroom => exact ⟨fun w' x hx => h.mine w' x ((notifyWorkers_e _ w').symm.trans hx), h.err⟩
  | ask hc => exact ⟨fun w' x hx => h.mine w' x ((notifyWorkers_e _ w').symm.trans hx), h.err⟩
  | start hw => exact ⟨fun w' x hx => h.mine w' x (by simpa using hx), h.err⟩
  | pass hw he => exact ⟨fun w' x hx => h.mine w' x (by simpa using hx), h.err⟩
  | leave hw => exact ⟨fun w' x hx => h.mine w' x (by simpa using hx), h.err⟩
  | waited => exact ⟨h.mine, by simp [State.throwIfError, State.setCaller]⟩
  | reset => exact ⟨h.mine, by simp [State.setCaller]⟩
  | refused => exact h
  | block => exact ⟨h.mine, h.err⟩
  | doze => exact ⟨h.mine, h.err⟩
  | joined => exact ⟨h.mine, h.err⟩
  | copy => exact ⟨h.mine, h.err⟩

theorem Calm.move (h : Calm lo s) (ht : Tickets s) (hf : Filed s) (hm : Move s a s' r)
    (hthrown : s'.thrown = s.thrown) (hclean : ¬Relapses s a) : Calm lo s' := by
  cases hm with
  | start hw =>
    exact Calm.setStage ⟨h.err, h.own, h.kept⟩ (by simp)
  | dequeue hw hd => exact h.dequeued hd
  | wake hw hd => exact (h.awake _).dequeued hd
  | @returned w j out hw =>
    refine ⟨h.err, ?_, h.kept⟩
    intro w' j' x hj hx
    replace hx : (s.workers w').e = some x := by simpa using hx
    rw [setStage_stage] at hj
    split at hj
    · next hww =>
      cases hj
      intro heq
      subst hww
      exact ht.live w' j hw (heq ▸ hf.mine w' x hx)
    · exact h.own w' j' x hj hx
  | threw hw => simp at hthrown
  | pass hw he => exact h.setStage (by simp)
  | report hw he herr => exact absurd ⟨_, _, _, rfl, hw, he, h.own _ _ _ hw he, herr⟩ hclean
  | leave hw =>
    exact Calm.setStage ⟨h.err, h.own, h.kept⟩ (by simp)
  | @push a c target ha hroom => exact ⟨h.err, (h.push target).notifyWorkers.own, (h.push target).kept⟩
  | ask hc =>
    exact ⟨h.err, (Calm.notifyWorkers (s := s) h).own, h.kept⟩
  | waited => exact ⟨rfl, h.own, h.kept⟩
  | reset => exact ⟨rfl, h.own, h.kept⟩
  | refused => exact h
  | block => exact ⟨h.err, h.own, h.kept⟩
  | doze => exact ⟨h.err, h.own, h.kept⟩
  | joined => exact ⟨h.err, h.own, h.kept⟩
  | copy => exact ⟨h.err, h.own, h.kept⟩

theorem thrown_grows (hm : Move s a s' r) : s.thrown <+: s'.thrown := by
  cases hm with
  | threw => exact prefix_append _ _
  | dequeue hw hd => cases hd <;> exact prefix_rfl
  | wake hw hd => cases hd <;> exact prefix_rfl
  | _ => exact prefix_rfl

/-! ## What every state of a run satisfies -/

/-- What holds in every state, whatever the jobs and the callers do. -/
structure Inv (s : State n κ E) : Prop where
  counts : Counts s
  tickets : Tickets s
  filed : Filed s

theorem Inv.move (h : Inv s) (hm : Move s a s' r) : Inv s' :=
  ⟨h.counts.move hm, h.tickets.move hm, h.filed.move hm⟩

theorem move_of_next (h : s.next a = some s') : ∃ r, Move s a s' r := by
  obtain ⟨⟨s1, r⟩, hstep, hs⟩ := Option.map_eq_some_iff.1 h
  cases hs
  exact ⟨r, move_of_step hstep⟩

theorem next_of_step (h : s.step a = some (s', r)) : s.next a = some s' := by
  unfold State.next
  rw [h]
  rfl

omit [DecidableEq κ] in
theorem Inv.make {maxRunning maxJobs : Nat} {s0 : State maxRunning κ E}
    (h : State.make κ E maxRunning maxJobs = .ok s0) : Inv s0 := by
  unfold State.make at h
  split at h
  · cases h
  · split at h
    · cases h
    · cases h
      refine ⟨?_, ?_, ?_⟩
      · simp [Counts, State.counted, Stage.counted]
      · constructor <;> simp [Stage.job, Caller.before]
      · constructor <;> simp

omit [DecidableEq κ] in
theorem make_pos {maxRunning maxJobs : Nat} {s0 : State maxRunning κ E}
    (h : State.make κ E maxRunning maxJobs = .ok s0) : 0 < maxRunning ∧ 0 < maxJobs := by
  unfold State.make at h
  split at h
  · cases h
  · split at h
    · cases h
    · next hr hj => exact ⟨Nat.pos_of_ne_zero hr, Nat.pos_of_ne_zero hj⟩

theorem Inv.run (h : Inv s) {as : List (Act n κ E)} (hrun : run State.next as s = some s') : Inv s' :=
  run_of_step (P := fun _ _ => True)
    (fun _ _ _ hi _ hs => hi.move (move_of_next hs).choose_spec) h along_true hrun

/-- What holds in every state as long as no job has thrown. -/
structure Quiet (s : State n κ E) : Prop where
  calm : Calm 0 s
  e : ∀ w, (s.workers w).e = none
  calls : ∀ c before x, s.callers c ≠ .rethrowing before x
  requested : s.requested ≤ s.accepted
  /-- a thread out of the loop leaves no job behind that was there when the pool was asked to end -/
  left : ∀ w, (s.workers w).stage = .leaving ∨ (s.workers w).stage = .gone →
    s.joinRequested = true ∧ ∀ t < s.requested, t ∈ s.started

end

theorem Caller.Roused.rethrowing {x y : Caller E} (h : x.Roused y) (hx : ∀ before e, x ≠ .rethrowing before e)
    (before : Nat) (e : Thrown E) : y ≠ .rethrowing before e := by
  rcases h with rfl | ⟨target, b, rfl, rfl⟩ | ⟨before, b, rfl, rfl⟩
  · exact hx before e
  · simp
  · simp

/-- The fields of `Quiet` that a thread's own step must look at. -/
theorem Quiet.setStage (h : Quiet s) (hc : ∀ j, g ≠ .completing j)
    (hg : g = .leaving ∨ g = .gone → s.joinRequested = true ∧ ∀ t < s.requested, t ∈ s.started) :
    Quiet (s.setStage w g) where
  calm := h.calm.setStage hc
  e w' := by simpa using h.e w'
  calls := h.calls
  requested := h.requested
  left w' hw' := by
    rw [setStage_stage] at hw'
    split at hw'
    · exact hg hw'
    · exact h.left w' hw'

theorem Quiet.dequeued (h : Quiet s) (hd : Dequeued s w s') : Quiet s' := by
  have hcalm := h.calm.dequeued hd
  cases hd with
  | finish hp hj =>
    refine h.setStage (by simp) fun _ => ⟨hj, fun t ht => ?_⟩
    have hmem := h.calm.kept t (Nat.zero_le t) (ht.trans_le h.requested)
    rwa [hp, map_nil, append_nil] at hmem
  | park hp hj cs hcs hdone =>
    exact Quiet.setStage ⟨⟨h.calm.err, h.calm.own, h.calm.kept⟩, h.e, fun c => (hcs c).rethrowing (h.calls c), h.requested, h.left⟩
      (by simp) (by simp)
  | discard hp he =>
    rw [h.calm.err] at he
    cases he
  | @take j js hp he cs hcs hspace =>
    refine ⟨hcalm, fun w' => by simpa using h.e w', fun c => (hcs c).rethrowing (h.calls c), h.requested, ?_⟩
    intro w' hw'
    rw [setStage_stage] at hw'
    split at hw'
    · simp at hw'
    · exact ⟨(h.left w' hw').1, fun t ht => mem_append_left _ ((h.left w' hw').2 t ht)⟩

theorem Quiet.awake (h : Quiet s) (w : Fin n) : Quiet (s.awake w) :=
  Quiet.setStage ⟨⟨h.calm.err, h.calm.own, h.calm.kept⟩, h.e, h.calls, h.requested, h.left⟩ (by simp) (by simp)

section
variable [DecidableEq κ] {a : Act n κ E} {r : Option (Return E)}

theorem setCaller_calls (h : ∀ c before x, s.callers c ≠ .rethrowing before x) {c : κ} {y : Caller E}
    (hy : ∀ before x, y ≠ .rethrowing before x) (c' : κ) (before : Nat) (x : Thrown E) :
    (s.setCaller c y).callers c' ≠ .rethrowing before x := by
  show update s.callers c y c' ≠ _
  by_cases hc : c' = c
  · subst hc
    rw [update_self]
    exact hy before x
  · rw [update_of_ne hc]
    exact h c' before x

theorem Quiet.move (h : Quiet s) (hi : Inv s) (hm : Move s a s' r) (hthrown : s'.thrown = []) : Quiet s' := by
  have hnone : s.thrown = [] := prefix_nil.1 (hthrown ▸ thrown_grows hm)
  have hclean : ¬Relapses s a := by
    rintro ⟨w, j, x, -, -, hx, -⟩
    rw [h.e w] at hx
    cases hx
  have hcalm := h.calm.move hi.tickets hi.filed hm (hthrown.trans hnone.symm) hclean
  cases hm with
  | start hw =>
    exact Quiet.setStage ⟨⟨h.calm.err, h.calm.own, h.calm.kept⟩, h.e, h.calls, h.requested, h.left⟩ (by simp) (by simp)
  | dequeue hw hd => exact h.dequeued hd
  | wake hw hd => exact (h.awake _).dequeued hd
  | @returned w j out hw =>
    refine ⟨hcalm, fun w' => by simpa using h.e w', h.calls, h.requested, ?_⟩
    intro w' hw'
    rw [setStage_stage] at hw'
    split at hw'
    · simp at hw'
    · exact h.left w' hw'
  | threw hw => simp at hthrown
  | pass hw he => exact h.setStage (by simp) (by simp)
  | @report w j x hw he herr =>
    rw [h.e w] at he
    cases he
  | leave hw =>
    exact Quiet.setStage ⟨⟨h.calm.err, h.calm.own, h.calm.kept⟩, h.e, h.calls, h.requested, h.left⟩ (by simp)
      fun _ => h.left _ (.inl hw)
  | refused => exact h
  | block => exact ⟨hcalm, h.e, setCaller_calls h.calls (by simp), h.requested, h.left⟩
  | push =>
    refine ⟨hcalm, fun w => (notifyWorkers_e _ w).trans (h.e w), setCaller_calls h.calls (by simp),
      Nat.le_succ_of_le h.requested, ?_⟩
    intro w hw
    apply h.left w
    rcases notifyWorkers_stage _ w with heq | ⟨heq, -⟩
    · rwa [State.setCaller, heq] at hw
    · rw [State.setCaller, heq] at hw
      simp at hw
  | doze => exact ⟨hcalm, h.e, setCaller_calls h.calls (by simp), h.requested, h.left⟩
  | waited => exact ⟨hcalm, h.e, setCaller_calls h.calls (by simp), h.requested, h.left⟩
  | ask =>
    refine ⟨hcalm, fun w => (notifyWorkers_e _ w).trans (h.e w), setCaller_calls h.calls (by simp), ?_, ?_⟩
    · show (if s.joinRequested = true then s.requested else s.accepted) ≤ s.accepted
      split
      · exact h.requested
      · exact le_rfl
    · intro w hw
      have hold : (s.workers w).stage = .leaving ∨ (s.workers w).stage = .gone := by
        rcases notifyWorkers_stage _ w with heq | ⟨heq, -⟩
        · rwa [State.setCaller, State.requestJoin, heq] at hw
        · rw [State.setCaller, State.requestJoin, heq] at hw
          simp at hw
      refine ⟨rfl, fun t ht => (h.left w hold).2 t ?_⟩
      replace ht : t < if s.joinRequested = true then s.requested else s.accepted := ht
      rwa [if_pos (h.left w hold).1] at ht
  | joined => exact ⟨hcalm, h.e, setCaller_calls h.calls (by simp), h.requested, h.left⟩
  | copy hc hgone he =>
    rw [h.calm.err] at he
    cases he
  | reset hc => exact absurd hc (h.calls _ _ _)

omit [DecidableEq κ] in
theorem Quiet.make {maxRunning maxJobs : Nat} {s0 : State maxRunning κ E}
    (h : State.make κ E maxRunning maxJobs = .ok s0) : Quiet s0 := by
  unfold State.make at h
  split at h
  · cases h
  · split at h
    · cases h
    · cases h
      constructor
      · constructor <;> simp
      all_goals simp

theorem Quiet.run (hi : Inv s) (h : Quiet s) {as : List (Act n κ E)} (hrun : run State.next as s = some s')
    (hthrown : s'.thrown = []) : Quiet s' := by
  have hkept : Inv s' ∧ (s'.thrown = [] → Quiet s') := by
    refine run_of_step (Q := fun s => Inv s ∧ (s.thrown = [] → Quiet s)) (P := fun _ _ => True)
      ?_ ⟨hi, fun _ => h⟩ along_true hrun
    intro s1 a s2 hq _ hs
    obtain ⟨r, hm⟩ := move_of_next hs
    refine ⟨hq.1.move hm, fun ht => ?_⟩
    have hnone : s1.thrown = [] := prefix_nil.1 (ht ▸ thrown_grows hm)
    exact (hq.2 hnone).move hq.1 hm ht
  exact hkept.2 hthrown

/-- A call that ends while no job has thrown: the jobs it waited for are over. -/
theorem Quiet.returns (h : Quiet s) (hi : Inv s) (hpos : 0 < n) {ret : Return E} (hm : Move s a s' (some ret)) :
    ∀ t < ret.before, ret.call = .wait ∨ t < s.requested → t ∈ s'.finished := by
  intro t ht hcase
  cases hm with
  | @waited a c before ha hcount hp =>
    have hjob : ∀ w, (s.workers w).stage.job = none := fun w => job_of_uncounted (uncounted_of_zero hi.counts hcount w)
    exact h.calm.settled hi.tickets hp hjob t (Nat.zero_le t) (ht.trans_le (ha.before_le hi.tickets))
  | @joined c k before nothrow hc hgone hk hq =>
    rcases hcase with hwait | hreq
    · exact absurd hwait hk
    · rcases hi.tickets.settled t ((h.left ⟨0, hpos⟩ (.inr (hgone _))).2 t hreq) with hfin | ⟨w, j, hrun, -⟩
      · exact hfin
      · rw [hgone w] at hrun
        cases hrun
  | reset hc => exact absurd hc (h.calls _ _ _)

/-- **While no job has thrown.** Whatever the schedule, and whoever calls: no job is started twice, `pending_size` and
`worker_count` count what they stand for, and a call of `wait` returns with every job over that was queued before it.
A call of `join` does so for the jobs that were queued before the pool was first asked to end. -/
theorem pool_quiet {maxRunning maxJobs : Nat} {s0 s : State maxRunning κ E} {as : List (Act maxRunning κ E)}
    (hmake : State.make κ E maxRunning maxJobs = .ok s0) (hrun : run State.next as s0 = some s)
    (hthrown : s.thrown = []) :
    (∀ t, s.started.count t ≤ 1) ∧ s.pendingSize = s.pending.length ∧
      s.workerCount = (Finset.univ.filter fun w => (s.workers w).stage.counted = true).card ∧
      ∀ a s' ret, s.step a = some (s', some ret) →
        ∀ t < ret.before, ret.call = .wait ∨ t < s.requested → t ∈ s'.finished := by
  have hi := (Inv.make hmake).run hrun
  have hq := (Quiet.make hmake).run (Inv.make hmake) hrun hthrown
  refine ⟨fun t => ?_, hi.tickets.size, hi.counts, ?_⟩
  · have hnodup : s.started.Nodup := ((pairwise_append.1 hi.tickets.order).1).imp Nat.ne_of_lt
    exact nodup_iff_count_le_one.1 hnodup t
  · intro a s' ret hstep
    exact hq.returns hi (make_pos hmake).1 (move_of_step hstep)

/-- One thread runs one job; the state before the caller's `wait` returns. -/
theorem pool_quiet_one : ∃ s : State 1 Unit Unit,
    (∃ s0, State.make Unit Unit 1 1 = .ok s0 ∧
      run State.next [.start 0, .call () (.add true), .dequeue 0, .run 0 none, .complete 0, .dequeue 0] s0 = some s) ∧
    s.accepted = 1 ∧ s.pendingSize = s.pending.length ∧
      ∃ s', s.step (.call () .wait) = some (s', some ⟨.wait, 1, none⟩) ∧ 0 ∈ s'.finished := by
  have hquiet := @pool_quiet Unit Unit _ 1 1 _ _ [.start 0, .call () (.add true), .dequeue 0, .run 0 none, .complete 0,
    .dequeue 0] rfl rfl rfl
  exact ⟨_, ⟨_, rfl, rfl⟩, rfl, hquiet.2.1, _, rfl,
    hquiet.2.2.2 (.call () .wait) _ ⟨.wait, 1, none⟩ rfl 0 Nat.one_pos (.inl rfl)⟩

/-- A job that is queued while another caller's `join` is under way: the only thread has gone, and a second `join`
returns with the job still in the queue. -/
theorem not_pool_quiet_joined : ∃ (s0 s s' : State 1 Bool Unit) (ret : Return Unit),
    State.make Bool Unit 1 1 = .ok s0 ∧
      run State.next [.start 0, .call false .join, .dequeue 0, .leave 0, .call true (.add true), .call true .join] s0 =
        some s ∧
      s.thrown = [] ∧ s.step (.resume true) = some (s', some ret) ∧ ret.call = .join ∧ 0 < ret.before ∧
      0 ∉ s'.finished :=
  ⟨_, _, _, _, rfl, rfl, rfl, rfl, rfl, Nat.one_pos, not_mem_nil⟩

end

end Sbmt.Search.JobPool
