import Sbmt.Lib.Machine

/-!
# thread_pool under any callers

| here | there |
| --- | --- |
| `State` | the members of `thread_pool` (`hash/thread_pool.hpp:179-197`), its threads, and the threads that call it |
| `State.make` | the constructor (`src/thread_pool.cpp:270-301`) |
| `State.dequeue` | the section at the head of `work`'s loop (`:178-203`) |
| `State.ran`, `State.complete` | `try_catch(*f,e)` (`:77-118`, `:204`) and the section after it (`:205-208`) |
| `State.addLoop` | `add` from its `while` on (`:309-316`) |
| `State.waitLoop` | `wait` (`:250-257`) |
| `State.step` | any thread takes its next step |

Every section under `mtx` is one step. A wait on a condition variable may end
at any time, notified or not, and the loop's condition is then tested again.
What `join` does after its threads are gone runs without the lock: the copy of
`err` and its reset are two steps. A job is numbered when `add` queues it, and
what its function does is up to the run. The destructor calls `join_nothrow`
or does nothing (`:259-266`).
-/

namespace Sbmt.Search.JobPool

open Sbmt.Lib Sbmt.Lib.Machine Option

/-- A queued `function_t`: the number `add` queued it under, and whether there is anything in it to call. -/
structure Job where
  ticket : Nat
  target : Bool
deriving DecidableEq, Repr

/-- An exception, and the job that threw it. -/
structure Thrown (E : Type*) where
  job : Nat
  what : E
deriving DecidableEq, Repr

/-- Where a thread of the pool stands in `work`. -/
inductive Stage where
  /-- before `++worker_count` -/
  | unborn
  /-- about to take the lock at the head of `while (!finished)` -/
  | ready
  /-- inside `pending_or_join_requested.wait`, which a notification has reached or not -/
  | parked (notified : Bool)
  | running (j : Job)
  /-- the job has ended, `err = e` is still to come -/
  | completing (j : Job)
  /-- out of the loop, the last `--worker_count` is still to come -/
  | leaving
  | gone
deriving DecidableEq, Repr

/-- The stages in which the thread is in `worker_count`. -/
def Stage.counted : Stage → Bool
  | unborn => false
  | ready => true
  | parked _ => false
  | running _ => true
  | completing _ => true
  | leaving => true
  | gone => false

/-- The job the thread holds. -/
def Stage.job : Stage → Option Job
  | running j => some j
  | completing j => some j
  | _ => none

/-- A thread of the pool and its local `e`, which no turn of the loop resets. -/
structure Worker (E : Type*) where
  stage : Stage
  e : Option (Thrown E)

/-- What a caller may ask of the pool. -/
inductive Call where
  | add (target : Bool)
  | wait
  | join
  | joinNothrow
deriving DecidableEq, Repr

/-- Where a calling thread stands. `before` is the number of jobs that were queued when it called. -/
inductive Caller (E : Type*) where
  | outside
  /-- inside `pending_space_available.wait` -/
  | adding (target : Bool) (notified : Bool)
  /-- inside `work_finished.wait` -/
  | waiting (before : Nat) (notified : Bool)
  /-- in the loop over the threads of `join_nothrow` -/
  | joining (before : Nat) (nothrow : Bool)
  /-- in `throw_if_error` of `join`, with `err2` copied and `err` not yet reset -/
  | rethrowing (before : Nat) (err2 : Thrown E)

/-- The jobs that were queued when a caller in `wait` or `join` called. -/
def Caller.before {E : Type*} : Caller E → Nat
  | outside => 0
  | adding _ _ => 0
  | waiting before _ => before
  | joining before _ => before
  | rethrowing before _ => before

/-- What a call of `wait` or `join` that is over tells: when it was made, and what it threw. -/
structure Return (E : Type*) where
  call : Call
  before : Nat
  threw : Option (Thrown E)

/-- The pool, its `n` threads and the calling threads. The last five fields record the run. -/
structure State (n : Nat) (κ E : Type*) where
  workerCount : Nat
  joinRequested : Bool
  maxJobs : Nat
  pending : List Job
  pendingSize : Nat
  err : Option (Thrown E)
  workers : Fin n → Worker E
  callers : κ → Caller E
  /-- jobs queued so far -/
  accepted : Nat
  /-- jobs queued when `join_requested` was first set -/
  requested : Nat
  started : List Nat
  finished : List Nat
  thrown : List (Thrown E)
  rethrown : List (Thrown E)

variable {n : Nat} {κ E : Type*}

/-- `thread_pool(max_running, max_jobs)`. -/
def State.make (κ E : Type*) (maxRunning maxJobs : Nat) : Except String (State maxRunning κ E) :=
  if maxRunning = 0 then
    .error "thread_pool::thread_pool(num_threads): num_threads must be greater than 0"
  else if maxJobs = 0 then
    .error "thread_pool::thread_pool(num_threads,max_jobs): requires 0 < max_jobs"
  else
    .ok {
      workerCount := 0, joinRequested := false, maxJobs := maxJobs, pending := [], pendingSize := 0
      err := none, workers := fun _ => ⟨.unborn, none⟩, callers := fun _ => .outside
      accepted := 0, requested := 0, started := [], finished := [], thrown := [], rethrown := [] }

section
variable (s : State n κ E)

/-- How many threads `worker_count` stands for. -/
def State.counted : Nat :=
  (Finset.univ.filter fun w => (s.workers w).stage.counted = true).card

variable (w : Fin n)

def State.setStage (g : Stage) : State n κ E :=
  { s with workers := Function.update s.workers w ⟨g, (s.workers w).e⟩ }

theorem setStage_stage (w w' : Fin n) (g : Stage) :
    ((s.setStage w g).workers w').stage = if w' = w then g else (s.workers w').stage := by
  unfold State.setStage
  by_cases h : w' = w
  · subst h
    simp
  · simp [h]

@[simp] theorem setStage_e (w w' : Fin n) (g : Stage) :
    ((s.setStage w g).workers w').e = (s.workers w').e := by
  unfold State.setStage
  by_cases h : w' = w
  · subst h
    simp
  · simp [h]

/-- `pending_or_join_requested.notify_all()` -/
def State.notifyWorkers : State n κ E :=
  { s with workers := fun w => match s.workers w with
      | ⟨.parked _, e⟩ => ⟨.parked true, e⟩
      | x => x }

/-- `pending_space_available.notify_all()` -/
def State.notifyAdders : State n κ E :=
  { s with callers := fun c => match s.callers c with
      | .adding target _ => .adding target true
      | x => x }

/-- `work_finished.notify_all()` -/
def State.notifyWaiters : State n κ E :=
  { s with callers := fun c => match s.callers c with
      | .waiting before _ => .waiting before true
      | x => x }

/-- The section at the head of the loop, by a thread that is in `worker_count`. -/
def State.dequeue : State n κ E :=
  match s.pending with
  | [] =>
    if s.joinRequested then s.setStage w .leaving
    else
      let s := { s with workerCount := s.workerCount - 1 }
      (if s.workerCount = 0 then s.notifyWaiters else s).setStage w (.parked false)
  | j :: js =>
    if s.err.isSome then
      -- "dont keep running jobs if uncaught exceptions occur"
      ({ s with pending := [], pendingSize := 0 } : State n κ E).setStage w (if s.joinRequested then .leaving else .ready)
    else
      let s := { s with pending := js, pendingSize := s.pendingSize - 1, started := s.started ++ [j.ticket] }
      (if s.pendingSize < s.maxJobs then s.notifyAdders else s).setStage w (.running j)

/-- A parked thread has the lock again: `++worker_count`. -/
def State.awake : State n κ E :=
  ({ s with workerCount := s.workerCount + 1 } : State n κ E).setStage w .ready

/-- `if (*f) try_catch(*f,e)`: the function returned, or `out` was thrown. -/
def State.ran (j : Job) (out : Option E) : State n κ E :=
  match if j.target then out else none with
  | none => { s.setStage w (.completing j) with finished := s.finished ++ [j.ticket] }
  | some what =>
    { s with
      workers := Function.update s.workers w ⟨.completing j, some ⟨j.ticket, what⟩⟩
      finished := s.finished ++ [j.ticket]
      thrown := s.thrown ++ [⟨j.ticket, what⟩] }

/-- `if (e and !err) err = e` -/
def State.complete : State n κ E :=
  { s.setStage w .ready with
    err := if (s.workers w).e.isSome && s.err.isNone then (s.workers w).e else s.err }

end

section
variable [DecidableEq κ] (s : State n κ E)

def State.setCaller (c : κ) (x : Caller E) : State n κ E :=
  { s with callers := Function.update s.callers c x }

/-- `add` from its `while` on. -/
def State.addLoop (c : κ) (target : Bool) : State n κ E :=
  if s.maxJobs ≤ s.pendingSize then s.setCaller c (.adding target false)
  else
    ({ s with
      pending := s.pending ++ [⟨s.accepted, target⟩]
      pendingSize := s.pendingSize + 1
      accepted := s.accepted + 1 } : State n κ E).notifyWorkers.setCaller c .outside

/-- `throw_if_error` under the lock. -/
def State.throwIfError : State n κ E :=
  { s with err := none, rethrown := s.rethrown ++ s.err.toList }

/-- `wait` from its `while` on. -/
def State.waitLoop (c : κ) (before : Nat) : State n κ E × Option (Return E) :=
  if 0 < s.workerCount ∨ s.pending ≠ [] then (s.setCaller c (.waiting before false), none)
  else (s.throwIfError.setCaller c .outside, some ⟨.wait, before, s.err⟩)

/-- `join_requested = true`, and the notification. -/
def State.requestJoin : State n κ E :=
  ({ s with
    joinRequested := true
    requested := if s.joinRequested then s.requested else s.accepted } : State n κ E).notifyWorkers

/-- What a thread may do next. -/
inductive Act (n : Nat) (κ E : Type*) where
  | start (w : Fin n)
  | dequeue (w : Fin n)
  /-- the job's function returned, or threw -/
  | run (w : Fin n) (out : Option E)
  | complete (w : Fin n)
  | leave (w : Fin n)
  | call (c : κ) (k : Call)
  /-- a caller inside the pool goes on -/
  | resume (c : κ)

/-- One step of one thread; `none` if the thread is elsewhere. -/
def State.step : Act n κ E → Option (State n κ E × Option (Return E))
  | .start w =>
    match (s.workers w).stage with
    | .unborn => some (({ s with workerCount := s.workerCount + 1 } : State n κ E).setStage w .ready, none)
    | _ => none
  | .dequeue w =>
    match (s.workers w).stage with
    | .ready => some (s.dequeue w, none)
    | .parked _ => some ((s.awake w).dequeue w, none)
    | _ => none
  | .run w out =>
    match (s.workers w).stage with
    | .running j => some (s.ran w j out, none)
    | _ => none
  | .complete w =>
    match (s.workers w).stage with
    | .completing _ => some (s.complete w, none)
    | _ => none
  | .leave w =>
    match (s.workers w).stage with
    | .leaving => some (({ s with workerCount := s.workerCount - 1 } : State n κ E).setStage w .gone, none)
    | _ => none
  | .call c k =>
    match s.callers c, k with
    | .outside, .add target => if s.err.isSome then some (s, none) else some (s.addLoop c target, none)
    | .outside, .wait => some (s.waitLoop c s.accepted)
    | .outside, .join => some (s.requestJoin.setCaller c (.joining s.accepted false), none)
    | .outside, .joinNothrow => some (s.requestJoin.setCaller c (.joining s.accepted true), none)
    | _, _ => none
  | .resume c =>
    match s.callers c with
    | .outside => none
    | .adding target _ => some (s.addLoop c target, none)
    | .waiting before _ => some (s.waitLoop c before)
    | .joining before nothrow =>
      if ∀ w, (s.workers w).stage = .gone then
        match nothrow, s.err with
        | true, _ => some (s.setCaller c .outside, some ⟨.joinNothrow, before, none⟩)
        | false, none => some (s.setCaller c .outside, some ⟨.join, before, none⟩)
        | false, some x => some (s.setCaller c (.rethrowing before x), none)
      else none
    | .rethrowing before x =>
      some (({ s with err := none, rethrown := s.rethrown ++ [x] } : State n κ E).setCaller c .outside,
        some ⟨.join, before, some x⟩)

def State.next (a : Act n κ E) : Option (State n κ E) :=
  (s.step a).map Prod.fst

end

/-! ## What a step can do -/

/-- Callers after a notification: who was parked stays parked, and knows. -/
def Caller.Roused (x y : Caller E) : Prop :=
  y = x ∨ (∃ target b, x = .adding target b ∧ y = .adding target true) ∨
    ∃ before b, x = .waiting before b ∧ y = .waiting before true

theorem Caller.Roused.before {x y : Caller E} (h : x.Roused y) : y.before = x.before := by
  rcases h with rfl | ⟨target, b, rfl, rfl⟩ | ⟨before, b, rfl, rfl⟩ <;> rfl

section

variable (s : State n κ E)

theorem notifyAdders_roused (c : κ) : (s.callers c).Roused (s.notifyAdders.callers c) := by
  simp only [State.notifyAdders]
  split
  · next target b h => exact .inr (.inl ⟨target, b, h, rfl⟩)
  · exact .inl rfl

theorem notifyWaiters_roused (c : κ) : (s.callers c).Roused (s.notifyWaiters.callers c) := by
  simp only [State.notifyWaiters]
  split
  · next before b h => exact .inr (.inr ⟨before, b, h, rfl⟩)
  · exact .inl rfl

theorem notifyAdders_ne (c : κ) (target : Bool) : s.notifyAdders.callers c ≠ .adding target false := by
  simp only [State.notifyAdders]
  split
  · simp
  · next h => exact h target false

theorem notifyWaiters_ne (c : κ) (before : Nat) : s.notifyWaiters.callers c ≠ .waiting before false := by
  simp only [State.notifyWaiters]
  split
  · simp
  · next h => exact h before false

end

/-- The state when `j` has been taken off the queue and `cs` are the callers. -/
abbrev State.taken (s : State n κ E) (j : Job) (js : List Job) (cs : κ → Caller E) : State n κ E :=
  { s with pending := js, pendingSize := s.pendingSize - 1, started := s.started ++ [j.ticket], callers := cs }

/-- The state when one more function has been put on the queue. -/
abbrev State.pushed (s : State n κ E) (target : Bool) : State n κ E :=
  { s with
    pending := s.pending ++ [⟨s.accepted, target⟩]
    pendingSize := s.pendingSize + 1
    accepted := s.accepted + 1 }

/-- The section at the head of the loop, branch by branch. -/
inductive Dequeued (s : State n κ E) (w : Fin n) : State n κ E → Prop
  | finish (hp : s.pending = []) (hj : s.joinRequested = true) : Dequeued s w (s.setStage w .leaving)
  | park (hp : s.pending = []) (hj : s.joinRequested = false) (cs : κ → Caller E)
      (hcs : ∀ c, (s.callers c).Roused (cs c))
      (hdone : s.workerCount - 1 = 0 → ∀ c before, cs c ≠ .waiting before false) :
      Dequeued s w (({ s with workerCount := s.workerCount - 1, callers := cs } : State n κ E).setStage w (.parked false))
  | discard {j : Job} {js : List Job} {x : Thrown E} (hp : s.pending = j :: js) (he : s.err = some x) :
      Dequeued s w (({ s with pending := [], pendingSize := 0 } : State n κ E).setStage w
        (if s.joinRequested then .leaving else .ready))
  | take {j : Job} {js : List Job} (hp : s.pending = j :: js) (he : s.err = none) (cs : κ → Caller E)
      (hcs : ∀ c, (s.callers c).Roused (cs c))
      (hspace : s.pendingSize - 1 < s.maxJobs → ∀ c target, cs c ≠ .adding target false) :
      Dequeued s w ((s.taken j js cs).setStage w (.running j))

theorem dequeue_cases (s : State n κ E) (w : Fin n) : Dequeued s w (s.dequeue w) := by
  unfold State.dequeue
  split
  · next hp =>
    split
    · next hj => exact .finish hp hj
    · next hj =>
      dsimp only
      split
      · exact .park hp (Bool.eq_false_iff.2 hj) _ (notifyWaiters_roused _) fun _ c before => notifyWaiters_ne _ c before
      · next hbusy => exact .park hp (Bool.eq_false_iff.2 hj) s.callers (fun c => .inl rfl) fun h => absurd h hbusy
  · next j js hp =>
    split
    · next he =>
      obtain ⟨x, he⟩ := isSome_iff_exists.1 he
      exact .discard hp he
    · next he =>
      have he := not_isSome_iff_eq_none.1 he
      dsimp only
      split
      · exact .take hp he _ (notifyAdders_roused _) fun _ c target => notifyAdders_ne _ c target
      · next hfull => exact .take hp he s.callers (fun c => .inl rfl) fun h => absurd h hfull

section
variable [DecidableEq κ]

/-- The caller is about to test the condition of `add`'s `while`. -/
inductive Adds (s : State n κ E) (c : κ) (target : Bool) : Act n κ E → Prop
  | call (h : s.callers c = .outside) (he : s.err = none) : Adds s c target (.call c (.add target))
  | resume {b : Bool} (h : s.callers c = .adding target b) : Adds s c target (.resume c)

/-- The caller is about to test the condition of `wait`'s `while`. -/
inductive Waits (s : State n κ E) (c : κ) : Nat → Act n κ E → Prop
  | call (h : s.callers c = .outside) : Waits s c s.accepted (.call c .wait)
  | resume {before : Nat} {b : Bool} (h : s.callers c = .waiting before b) : Waits s c before (.resume c)

/-- Everything a step can do. -/
inductive Move (s : State n κ E) : Act n κ E → State n κ E → Option (Return E) → Prop
  | start {w : Fin n} (hw : (s.workers w).stage = .unborn) :
      Move s (.start w) (({ s with workerCount := s.workerCount + 1 } : State n κ E).setStage w .ready) none
  | dequeue {w : Fin n} {s' : State n κ E} (hw : (s.workers w).stage = .ready) (hd : Dequeued s w s') :
      Move s (.dequeue w) s' none
  | wake {w : Fin n} {b : Bool} {s' : State n κ E} (hw : (s.workers w).stage = .parked b)
      (hd : Dequeued (s.awake w) w s') : Move s (.dequeue w) s' none
  | returned {w : Fin n} {j : Job} {out : Option E} (hw : (s.workers w).stage = .running j) :
      Move s (.run w out) { s.setStage w (.completing j) with finished := s.finished ++ [j.ticket] } none
  | threw {w : Fin n} {j : Job} {out : Option E} {what : E} (hw : (s.workers w).stage = .running j) :
      Move s (.run w out)
        { s with
          workers := Function.update s.workers w ⟨.completing j, some ⟨j.ticket, what⟩⟩
          finished := s.finished ++ [j.ticket]
          thrown := s.thrown ++ [⟨j.ticket, what⟩] } none
  | pass {w : Fin n} {j : Job} (hw : (s.workers w).stage = .completing j)
      (he : (s.workers w).e = none ∨ s.err ≠ none) : Move s (.complete w) (s.setStage w .ready) none
  | report {w : Fin n} {j : Job} {x : Thrown E} (hw : (s.workers w).stage = .completing j)
      (he : (s.workers w).e = some x) (herr : s.err = none) :
      Move s (.complete w) (({ s with err := some x } : State n κ E).setStage w .ready) none
  | leave {w : Fin n} (hw : (s.workers w).stage = .leaving) :
      Move s (.leave w) (({ s with workerCount := s.workerCount - 1 } : State n κ E).setStage w .gone) none
  | refused {c : κ} {target : Bool} {x : Thrown E} (hc : s.callers c = .outside) (he : s.err = some x) :
      Move s (.call c (.add target)) s none
  | block {a : Act n κ E} {c : κ} {target : Bool} (ha : Adds s c target a) (hfull : s.maxJobs ≤ s.pendingSize) :
      Move s a (s.setCaller c (.adding target false)) none
  | push {a : Act n κ E} {c : κ} {target : Bool} (ha : Adds s c target a) (hroom : s.pendingSize < s.maxJobs) :
      Move s a ((s.pushed target).notifyWorkers.setCaller c .outside) none
  | doze {a : Act n κ E} {c : κ} {before : Nat} (ha : Waits s c before a) (hbusy : 0 < s.workerCount ∨ s.pending ≠ []) :
      Move s a (s.setCaller c (.waiting before false)) none
  | waited {a : Act n κ E} {c : κ} {before : Nat} (ha : Waits s c before a) (hcount : s.workerCount = 0)
      (hp : s.pending = []) :
      Move s a (s.throwIfError.setCaller c .outside) (some ⟨.wait, before, s.err⟩)
  | ask {c : κ} {k : Call} {nothrow : Bool} (hc : s.callers c = .outside) :
      Move s (.call c k) (s.requestJoin.setCaller c (.joining s.accepted nothrow)) none
  | joined {c : κ} {k : Call} {before : Nat} {nothrow : Bool} (hc : s.callers c = .joining before nothrow)
      (hgone : ∀ w, (s.workers w).stage = .gone) (hk : k ≠ .wait) (hq : nothrow = true ∨ s.err = none) :
      Move s (.resume c) (s.setCaller c .outside) (some ⟨k, before, none⟩)
  | copy {c : κ} {before : Nat} {x : Thrown E} (hc : s.callers c = .joining before false)
      (hgone : ∀ w, (s.workers w).stage = .gone) (he : s.err = some x) :
      Move s (.resume c) (s.setCaller c (.rethrowing before x)) none
  | reset {c : κ} {before : Nat} {x : Thrown E} (hc : s.callers c = .rethrowing before x) :
      Move s (.resume c) (({ s with err := none, rethrown := s.rethrown ++ [x] } : State n κ E).setCaller c .outside)
        (some ⟨.join, before, some x⟩)

variable {s s' : State n κ E} {a : Act n κ E} {r : Option (Return E)}

theorem move_addLoop {c : κ} {target : Bool} (ha : Adds s c target a) : Move s a (s.addLoop c target) none := by
  unfold State.addLoop
  split
  · next hfull => exact .block ha hfull
  · next hroom => exact .push ha (Nat.lt_of_not_le hroom)

theorem move_waitLoop {c : κ} {before : Nat} (ha : Waits s c before a) :
    Move s a (s.waitLoop c before).1 (s.waitLoop c before).2 := by
  unfold State.waitLoop
  split
  · next hbusy => exact .doze ha hbusy
  · next hidle =>
    rw [not_or, not_not] at hidle
    exact .waited ha (Nat.eq_zero_of_not_pos hidle.1) hidle.2

theorem move_ran {w : Fin n} {j : Job} {out : Option E} (hw : (s.workers w).stage = .running j) :
    Move s (.run w out) (s.ran w j out) none := by
  unfold State.ran
  split
  · exact .returned hw
  · exact .threw hw

theorem move_complete {w : Fin n} {j : Job} (hw : (s.workers w).stage = .completing j) :
    Move s (.complete w) (s.complete w) none := by
  unfold State.complete
  cases he : (s.workers w).e with
  | none => exact .pass hw (.inl he)
  | some x =>
    cases herr : s.err with
    | none => exact .report hw he herr
    | some y =>
      have h := Move.pass (s := s) hw (.inr (by simp [herr]))
      simpa [State.setStage, herr] using h

theorem move_of_step (h : s.step a = some (s', r)) : Move s a s' r := by
  cases a with
  | start w =>
    simp only [State.step] at h
    split at h
    · next hw => cases h; exact .start hw
    · cases h
  | dequeue w =>
    simp only [State.step] at h
    split at h
    · next hw => cases h; exact .dequeue hw (dequeue_cases s w)
    · next b hw => cases h; exact .wake hw (dequeue_cases _ w)
    · cases h
  | run w out =>
    simp only [State.step] at h
    split at h
    · next j hw => cases h; exact move_ran hw
    · cases h
  | complete w =>
    simp only [State.step] at h
    split at h
    · next j hw => cases h; exact move_complete hw
    · cases h
  | leave w =>
    simp only [State.step] at h
    split at h
    · next hw => cases h; exact .leave hw
    · cases h
  | call c k =>
    simp only [State.step] at h
    split at h
    · next target hc =>
      cases he : s.err with
      | none =>
        simp only [he, isSome_none, Bool.false_eq_true, if_false] at h
        cases h
        exact move_addLoop (.call hc he)
      | some x =>
        simp only [he, isSome_some, if_true] at h
        cases h
        exact .refused hc he
    · next hc =>
      have hwait := move_waitLoop (Waits.call hc)
      rwa [Option.some.inj h] at hwait
    · next hc => cases h; exact .ask hc
    · next hc => cases h; exact .ask hc
    · cases h
  | resume c =>
    simp only [State.step] at h
    split at h
    · cases h
    · next target b hc => cases h; exact move_addLoop (.resume hc)
    · next before b hc =>
      have hwait := move_waitLoop (Waits.resume hc)
      rwa [Option.some.inj h] at hwait
    · next before nothrow hc =>
      split at h
      · next hgone =>
        split at h
        · cases h; exact .joined hc hgone (by decide) (.inl rfl)
        · next he => cases h; exact .joined hc hgone (by decide) (.inr he)
        · next x he => cases h; exact .copy hc hgone he
      · cases h
    · next before x hc => cases h; exact .reset hc

end

end Sbmt.Search.JobPool
