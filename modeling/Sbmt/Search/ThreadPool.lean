import Sbmt.Lib.CellProg

/-!
# thread_pool, and a client that queues its jobs in rounds

| here | there |
| --- | --- |
| `Stage`, `Worker`, `WorkerStep` | `thread_pool::work` (`src/thread_pool.cpp:166-212`), one constructor per stretch of code between two synchronisation points |
| `Pool` | the members of `thread_pool` (`hash/thread_pool.hpp:186-198`) and the store the jobs work on |
| `Producer`, `ProducerStep` | the calling thread: the `for` over rounds of `cky_mt` (`search/lazy/cky.hpp:317-346`), with `add` (`:306-319`), `wait` (`:244-251`), `join` (`:216-242`) and `~thread_pool` (`:253-260`) of `thread_pool.cpp` |
| `Step` | any thread takes its next step |
| `rounds` | the same rounds run by the caller itself, one job after the other |

A wait on a condition variable may end at any time (a spurious wakeup) and the
condition is then tested again, so `wait()` and a blocked `add()` are steps
with the loop's condition as their guard, and a worker inside
`pending_or_join_requested.wait` may go back to its loop whenever it likes.
Every schedule of the real pool is among these. A job is a `CellProg`, so the
threads interleave between any two accesses to the store; an error that leaves
a job is what `try_catch` puts in the worker's `e`.
-/

namespace Sbmt.Search.ThreadPool

open Sbmt.Lib List Function

variable {K V E ω : Type*}

/-- Where a worker stands in `thread_pool::work`. -/
inductive Stage (K V E : Type*) where
  /-- the thread exists and has not reached `++worker_count` -/
  | unborn
  /-- about to take the lock at the head of `while (!finished)` -/
  | ready
  /-- inside `pending_or_join_requested.wait` -/
  | idle
  /-- inside `try_catch(*f,e)` -/
  | running (k : K) (p : CellProg K V E)
  /-- the job has ended, `err = e` is still to come -/
  | storing
  /-- out of the loop, the last `--worker_count` is still to come -/
  | leaving
  | gone

/-- The stages in which the worker is counted by `worker_count`. -/
def Stage.counted : Stage K V E → Bool
  | unborn => false
  | ready => true
  | idle => false
  | running _ _ => true
  | storing => true
  | leaving => true
  | gone => false

/-- A worker and its local `e`, which no iteration of the loop resets. -/
structure Worker (K V E : Type*) where
  stage : Stage K V E
  e : Option E

/-- The state all threads share. `started` records the jobs taken off the queue,
in order. -/
structure Pool (K V E : Type*) where
  workerCount : Nat
  joinRequested : Bool
  pending : List K
  err : Option E
  store : K → V
  started : List K

/-- What the caller does with the pool: rounds of jobs, queued where the cell is
blank, with a barrier after each. -/
structure Client (K V E : Type*) where
  /-- the loop's condition before round `r` -/
  more : Nat → Bool
  jobs : Nat → List K
  blank : V → Bool
  body : K → CellProg K V E
  maxJobs : Nat

/-- Where the calling thread stands. -/
inductive Producer (K E : Type*) where
  /-- the loop's test before round `r` -/
  | head (r : Nat)
  /-- in round `r`, with `todo` still to be looked at -/
  | each (r : Nat) (todo : List K)
  /-- inside `add` for `k` -/
  | adding (r : Nat) (k : K) (todo : List K)
  /-- inside `wait` -/
  | waiting (r : Nat)
  /-- inside `join`, before and after `join_requested = true` -/
  | joining
  | joinAll
  /-- `wait` threw: inside the destructor, before and after `join_requested = true` -/
  | unwinding (e : E)
  | unwindAll (e : E)
  | returned
  | threw (e : E)
  /-- the pool's constructor threw: no threads were asked for -/
  | refused

structure State (K V E ω : Type*) where
  pool : Pool K V E
  producer : Producer K E
  workers : ω → Worker K V E

variable [DecidableEq K]

/-- One step of a worker, on the shared state and its own. -/
inductive WorkerStep (c : Client K V E) : Pool K V E → Worker K V E → Pool K V E → Worker K V E → Prop
  | enter {q : Pool K V E} {e : Option E} :
      WorkerStep c q ⟨.unborn, e⟩ { q with workerCount := q.workerCount + 1 } ⟨.ready, e⟩
  | sleep {q : Pool K V E} {e : Option E} (hjoin : q.joinRequested = false) (hp : q.pending = []) :
      WorkerStep c q ⟨.ready, e⟩ { q with workerCount := q.workerCount - 1 } ⟨.idle, e⟩
  | wake {q : Pool K V E} {e : Option E} :
      WorkerStep c q ⟨.idle, e⟩ { q with workerCount := q.workerCount + 1 } ⟨.ready, e⟩
  | finish {q : Pool K V E} {e : Option E} (hjoin : q.joinRequested = true) (hp : q.pending = []) :
      WorkerStep c q ⟨.ready, e⟩ q ⟨.leaving, e⟩
  /-- "dont keep running jobs if uncaught exceptions occur" -/
  | drop {q : Pool K V E} {e : Option E} {k : K} {ks : List K} (hp : q.pending = k :: ks)
      (herr : q.err.isSome = true) :
      WorkerStep c q ⟨.ready, e⟩ { q with pending := [] } ⟨if q.joinRequested then .leaving else .ready, e⟩
  | take {q : Pool K V E} {e : Option E} {k : K} {ks : List K} (hp : q.pending = k :: ks)
      (herr : q.err = none) :
      WorkerStep c q ⟨.ready, e⟩ { q with pending := ks, started := q.started ++ [k] }
        ⟨.running k (c.body k), e⟩
  | read {q : Pool K V E} {e : Option E} {k j : K} {next : V → CellProg K V E} :
      WorkerStep c q ⟨.running k (.read j next), e⟩ q ⟨.running k (next (q.store j)), e⟩
  | write {q : Pool K V E} {e : Option E} {k j : K} {v : V} {next : CellProg K V E} :
      WorkerStep c q ⟨.running k (.write j v next), e⟩
        { q with store := update q.store j v } ⟨.running k next, e⟩
  | ended {q : Pool K V E} {e : Option E} {k : K} :
      WorkerStep c q ⟨.running k .ret, e⟩ q ⟨.storing, e⟩
  | caught {q : Pool K V E} {e : Option E} {k : K} {x : E} :
      WorkerStep c q ⟨.running k (.throw x), e⟩ q ⟨.storing, some x⟩
  | store {q : Pool K V E} {e : Option E} :
      WorkerStep c q ⟨.storing, e⟩ { q with err := if q.err.isSome then q.err else e } ⟨.ready, e⟩
  | leave {q : Pool K V E} {e : Option E} :
      WorkerStep c q ⟨.leaving, e⟩ { q with workerCount := q.workerCount - 1 } ⟨.gone, e⟩

/-- One step of the calling thread; `quit` says that every worker is gone. -/
inductive ProducerStep (c : Client K V E) (quit : Prop) :
    Pool K V E → Producer K E → Pool K V E → Producer K E → Prop
  | more {q : Pool K V E} {r : Nat} (h : c.more r = true) :
      ProducerStep c quit q (.head r) q (.each r (c.jobs r))
  | noMore {q : Pool K V E} {r : Nat} (h : c.more r = false) :
      ProducerStep c quit q (.head r) q .joining
  /-- the cell is not empty: `pool.add` is not called -/
  | skip {q : Pool K V E} {r : Nat} {k : K} {ks : List K} (h : c.blank (q.store k) = false) :
      ProducerStep c quit q (.each r (k :: ks)) q (.each r ks)
  | add {q : Pool K V E} {r : Nat} {k : K} {ks : List K} (h : c.blank (q.store k) = true) :
      ProducerStep c quit q (.each r (k :: ks)) q (.adding r k ks)
  /-- `if (err) return;` -/
  | addNothing {q : Pool K V E} {r : Nat} {k : K} {ks : List K} (h : q.err.isSome = true) :
      ProducerStep c quit q (.adding r k ks) q (.each r ks)
  | addPending {q : Pool K V E} {r : Nat} {k : K} {ks : List K} (h : q.err = none)
      (hspace : q.pending.length < c.maxJobs) :
      ProducerStep c quit q (.adding r k ks) { q with pending := q.pending ++ [k] } (.each r ks)
  | wait {q : Pool K V E} {r : Nat} :
      ProducerStep c quit q (.each r []) q (.waiting r)
  | waited {q : Pool K V E} {r : Nat} (hcount : q.workerCount = 0) (hp : q.pending = [])
      (herr : q.err = none) :
      ProducerStep c quit q (.waiting r) q (.head (r + 1))
  | waitThrows {q : Pool K V E} {r : Nat} {e : E} (hcount : q.workerCount = 0) (hp : q.pending = [])
      (herr : q.err = some e) :
      ProducerStep c quit q (.waiting r) { q with err := none } (.unwinding e)
  | join {q : Pool K V E} :
      ProducerStep c quit q .joining { q with joinRequested := true } .joinAll
  | joined {q : Pool K V E} (hquit : quit) (herr : q.err = none) :
      ProducerStep c quit q .joinAll q .returned
  | joinThrows {q : Pool K V E} {e : E} (hquit : quit) (herr : q.err = some e) :
      ProducerStep c quit q .joinAll { q with err := none } (.threw e)
  | unwind {q : Pool K V E} {e : E} :
      ProducerStep c quit q (.unwinding e) { q with joinRequested := true } (.unwindAll e)
  | unwound {q : Pool K V E} {e : E} (hquit : quit) :
      ProducerStep c quit q (.unwindAll e) q (.threw e)

/-- Some thread takes a step. -/
inductive Step [DecidableEq ω] (c : Client K V E) : State K V E ω → State K V E ω → Prop
  | producer {s : State K V E ω} {q' : Pool K V E} {d' : Producer K E}
      (h : ProducerStep c (∀ w, (s.workers w).stage = .gone) s.pool s.producer q' d') :
      Step c s { s with pool := q', producer := d' }
  | worker {s : State K V E ω} (w : ω) {q' : Pool K V E} {x' : Worker K V E}
      (h : WorkerStep c s.pool (s.workers w) q' x') :
      Step c s { s with pool := q', workers := update s.workers w x' }

abbrev Steps [DecidableEq ω] (c : Client K V E) : State K V E ω → State K V E ω → Prop :=
  Relation.ReflTransGen (Step c)

/-- A fresh pool of the threads `ω`. -/
def Pool.start (σ : K → V) : Pool K V E := ⟨0, false, [], none, σ, []⟩

def State.start (σ : K → V) : State K V E ω :=
  ⟨Pool.start σ, .head 0, fun _ => ⟨.unborn, none⟩⟩

/-- The first `r` rounds run by the caller alone, with the list of jobs run. -/
def rounds (c : Client K V E) : Nat → (K → V) → Except E ((K → V) × List K)
  | 0, σ => .ok (σ, [])
  | r + 1, σ => rounds c r σ >>= fun x =>
      (pass c.blank c.body (c.jobs r) x.1).map fun y => (y.1, x.2 ++ y.2)

/-! ## Clients whose rounds are independent -/

/-- The loop gets as far as round `r`. -/
def Client.Enters (c : Client K V E) (r : Nat) : Prop := ∀ i ≤ r, c.more i = true

/-- No job of round `r` or of a later round owns the cell. -/
def Client.Below (c : Client K V E) (r : Nat) (j : K) : Prop := ∀ r', r ≤ r' → c.Enters r' → j ∉ c.jobs r'

/-- Each round names a cell once, and a job reads only cells that the rounds
before its own have dealt with. -/
structure Client.Staged (c : Client K V E) : Prop where
  nodup : ∀ r, (c.jobs r).Nodup
  apart : ∀ r r', r < r' → c.Enters r' → ∀ k ∈ c.jobs r, k ∉ c.jobs r'
  confined : ∀ r, c.Enters r → ∀ k ∈ c.jobs r, (c.body k).Confined k (c.Below r)

/-- The job a worker is in. -/
def Stage.job : Stage K V E → Option (K × CellProg K V E)
  | running k p => some (k, p)
  | _ => none

/-- What the pool holds while round `r` is under way and nothing has gone wrong.
`C` is the store the round began with, `log` the jobs of the earlier rounds,
`done` the keys of this round the caller has looked at, and `pre` the jobs of
this round that have been taken off the queue. -/
structure Exact (c : Client K V E) (C : K → V) (log done pre : List K) (q : Pool K V E)
    (job : ω → Option (K × CellProg K V E)) : Prop where
  started : q.started = log ++ pre
  queue : pre ++ q.pending = done.filter fun k => c.blank (C k)
  off : ∀ j, j ∉ pre → q.store j = C j
  /-- what is left of a job, started on `C` with its own cell as it stands, comes
  to what the whole job comes to on `C` -/
  run : ∀ w k p, job w = some (k, p) →
    k ∈ pre ∧ p.exec (update C k (q.store k)) = (c.body k).exec C
  apart : ∀ w w' k p p', job w = some (k, p) → job w' = some (k, p') → w = w'
  settled : ∀ k ∈ pre, (∃ w p, job w = some (k, p)) ∨ Settles C k (c.body k) (q.store k)

namespace Exact

variable {c : Client K V E} {C : K → V} {log done pre : List K} {q : Pool K V E}
  {job : ω → Option (K × CellProg K V E)}

variable {k : K}

theorem notMem_pre (h : Exact c C log done pre q job) (hk : k ∉ done) : k ∉ pre := by
  intro hmem
  have : k ∈ done.filter fun k => c.blank (C k) := h.queue ▸ mem_append_left _ hmem
  exact hk (mem_filter.1 this).1

/-- The fields of the pool that `Exact` speaks about. -/
theorem congr {q' : Pool K V E} (h : Exact c C log done pre q job) (hs : q'.started = q.started)
    (hp : q'.pending = q.pending) (hσ : q'.store = q.store) : Exact c C log done pre q' job where
  started := by rw [hs]; exact h.started
  queue := by rw [hp]; exact h.queue
  off := by rw [hσ]; exact h.off
  run := by rw [hσ]; exact h.run
  apart := h.apart
  settled := by rw [hσ]; exact h.settled

section

variable (h : Exact c C log done pre q job)
include h

/-- The caller looks at one more key of the round. -/
theorem look (hk : c.blank (C k) = false) : Exact c C log (done ++ [k]) pre q job :=
  { h with queue := by simp [h.queue, hk] }

/-- The caller queues one more key of the round. -/
theorem add (hk : c.blank (C k) = true) :
    Exact c C log (done ++ [k]) pre { q with pending := q.pending ++ [k] } job :=
  { h with queue := by simp [← append_assoc, h.queue, hk] }

end

/-- **The barrier.** With nothing queued and no job in progress the store is the
one a pass over the round's keys leaves behind. -/
theorem barrier {r : Nat} (hc : c.Staged) (hr : c.Enters r) (h : Exact c C log (c.jobs r) pre q job)
    (hp : q.pending = []) (hjob : ∀ w, job w = none) :
    pass c.blank c.body (c.jobs r) C = .ok (q.store, pre) ∧ q.started = log ++ pre := by
  have hpre : pre = (c.jobs r).filter fun k => c.blank (C k) := by
    have := h.queue
    rwa [hp, append_nil] at this
  have hset : ∀ k ∈ pre, Settles C k (c.body k) (q.store k) := by
    intro k hk
    rcases h.settled k hk with ⟨w, p, hw⟩ | hset
    · simp [hjob w] at hw
    · exact hset
  refine ⟨?_, h.started⟩
  rw [pass_eq_of_settled (R := c.Below r) (hc.nodup r) (fun k hk hb => hb r (Nat.le_refl r) hr hk)
    fun k hk hb => ⟨hc.confined r hr k hk, hset k (hpre ▸ mem_filter.2 ⟨hk, hb⟩)⟩, ← hpre]
  congr 2
  funext j
  by_cases hj : j ∈ pre
  · simp [overlay, hj]
  · simp [overlay, hj, h.off j hj]

variable [DecidableEq ω] {w : ω}

section

variable (h : Exact c C log done pre q job)
include h

/-- A worker takes the next job off the queue. -/
theorem take (hnd : done.Nodup) {ks : List K} (hp : q.pending = k :: ks) (hw : job w = none) :
    Exact c C log done (pre ++ [k]) { q with pending := ks, started := q.started ++ [k] }
      (update job w (some (k, c.body k))) := by
  have hq : pre ++ k :: ks = done.filter fun k => c.blank (C k) := hp ▸ h.queue
  have hk : k ∉ pre := by
    intro hmem
    have hnd' : (pre ++ k :: ks).Nodup := hq ▸ hnd.filter _
    exact (nodup_append.1 hnd').2.2 k hmem k (mem_cons_self ..) rfl
  constructor
  case started => simp [h.started]
  case queue => simpa using hq
  case off =>
    intro j hj
    exact h.off j fun hmem => hj (mem_append_left _ hmem)
  case run =>
    intro w' k' p hjob
    by_cases hw' : w' = w
    · subst hw'
      simp only [update_self, Option.some.injEq, Prod.mk.injEq] at hjob
      obtain ⟨rfl, rfl⟩ := hjob
      refine ⟨by simp, ?_⟩
      rw [h.off k hk, update_eq_self]
    · rw [update_of_ne hw'] at hjob
      exact ⟨mem_append_left _ (h.run w' k' p hjob).1, (h.run w' k' p hjob).2⟩
  case apart =>
    intro w1 w2 k' p1 p2 h1 h2
    by_cases hw1 : w1 = w <;> by_cases hw2 : w2 = w
    · rw [hw1, hw2]
    · rw [update_of_ne hw2] at h2
      simp only [hw1, update_self, Option.some.injEq, Prod.mk.injEq] at h1
      exact absurd (h.run w2 k' p2 h2).1 (h1.1 ▸ hk)
    · rw [update_of_ne hw1] at h1
      simp only [hw2, update_self, Option.some.injEq, Prod.mk.injEq] at h2
      exact absurd (h.run w1 k' p1 h1).1 (h2.1 ▸ hk)
    · rw [update_of_ne hw1] at h1
      rw [update_of_ne hw2] at h2
      exact h.apart w1 w2 k' p1 p2 h1 h2
  case settled =>
    intro k' hk'
    rcases mem_append.1 hk' with hk' | hk'
    · rcases h.settled k' hk' with ⟨w', p, hjob⟩ | hset
      · have hne : w' ≠ w := fun heq => by simp [heq, hw] at hjob
        exact .inl ⟨w', p, by rw [update_of_ne hne]; exact hjob⟩
      · exact .inr hset
    · obtain rfl := mem_singleton.1 hk'
      exact .inl ⟨w, c.body k', by simp⟩

/-- A job goes on, having at most written its own cell. -/
theorem advance {p : CellProg K V E} (hw : job w = some (k, p)) (p' : CellProg K V E) (v : V)
    (hp : p'.exec (update C k v) = p.exec (update C k (q.store k))) :
    Exact c C log done pre { q with store := update q.store k v }
      (update job w (some (k, p'))) := by
  have hk := (h.run w k p hw).1
  -- every other job in progress is another cell's
  have hother : ∀ w' k' p', w' ≠ w → job w' = some (k', p') → k' ≠ k := by
    intro w' k' p' hne hjob heq
    subst heq
    exact hne (h.apart w' w k' p' p hjob hw)
  constructor
  case started => exact h.started
  case queue => exact h.queue
  case off =>
    intro j hj
    have hne : j ≠ k := fun heq => hj (heq ▸ hk)
    show update q.store k v j = C j
    rw [update_of_ne hne]
    exact h.off j hj
  case run =>
    intro w' k' p1 hjob
    by_cases hw' : w' = w
    · subst hw'
      simp only [update_self, Option.some.injEq, Prod.mk.injEq] at hjob
      obtain ⟨rfl, rfl⟩ := hjob
      refine ⟨hk, ?_⟩
      show p'.exec (update C k (update q.store k v k)) = _
      rw [update_self, hp]
      exact (h.run w' k p hw).2
    · rw [update_of_ne hw'] at hjob
      refine ⟨(h.run w' k' p1 hjob).1, ?_⟩
      show p1.exec (update C k' (update q.store k v k')) = _
      rw [update_of_ne (hother w' k' p1 hw' hjob)]
      exact (h.run w' k' p1 hjob).2
  case apart =>
    intro w1 w2 k' p1 p2 h1 h2
    by_cases hw1 : w1 = w <;> by_cases hw2 : w2 = w
    · rw [hw1, hw2]
    · rw [update_of_ne hw2] at h2
      simp only [hw1, update_self, Option.some.injEq, Prod.mk.injEq] at h1
      exact absurd h1.1.symm (hother w2 k' p2 hw2 h2)
    · rw [update_of_ne hw1] at h1
      simp only [hw2, update_self, Option.some.injEq, Prod.mk.injEq] at h2
      exact absurd h2.1.symm (hother w1 k' p1 hw1 h1)
    · rw [update_of_ne hw1] at h1
      rw [update_of_ne hw2] at h2
      exact h.apart w1 w2 k' p1 p2 h1 h2
  case settled =>
    intro k' hk'
    by_cases hkk : k' = k
    · exact .inl ⟨w, p', by simp [hkk]⟩
    · rcases h.settled k' hk' with ⟨w', p1, hjob⟩ | hset
      · have hne : w' ≠ w := by
          intro heq
          rw [heq, hw] at hjob
          simp only [Option.some.injEq, Prod.mk.injEq] at hjob
          exact hkk hjob.1.symm
        exact .inl ⟨w', p1, by rw [update_of_ne hne]; exact hjob⟩
      · right
        show Settles C k' (c.body k') (update q.store k v k')
        rw [update_of_ne hkk]
        exact hset

/-- A job ends: its cell holds what the job alone would have left there. -/
theorem finish (hw : job w = some (k, .ret)) : Exact c C log done pre q (update job w none) := by
  have hset : Settles C k (c.body k) (q.store k) := (h.run w k .ret hw).2.symm
  have hold : ∀ w' x, update job w none w' = some x → job w' = some x := by
    intro w' x hjob
    by_cases hw' : w' = w
    · simp [hw'] at hjob
    · rwa [update_of_ne hw'] at hjob
  constructor
  case started => exact h.started
  case queue => exact h.queue
  case off => exact h.off
  case run => exact fun w' k' p hjob => h.run w' k' p (hold w' _ hjob)
  case apart => exact fun w1 w2 k' p1 p2 h1 h2 => h.apart w1 w2 k' p1 p2 (hold w1 _ h1) (hold w2 _ h2)
  case settled =>
    intro k' hk'
    rcases h.settled k' hk' with ⟨w', p, hjob⟩ | hset'
    · by_cases hw' : w' = w
      · rw [hw', hw] at hjob
        simp only [Option.some.injEq, Prod.mk.injEq] at hjob
        exact .inr (hjob.1 ▸ hset)
      · exact .inl ⟨w', p, by rw [update_of_ne hw']; exact hjob⟩
    · exact .inr hset'

end

/-- **One step of a worker** keeps the round exact, or leaves the worker with an
error in hand. -/
theorem workerStep {r : Nat} (hc : c.Staged) (hr : c.Enters r) (h : Exact c C log done pre q job)
    (hdone : ∃ todo, c.jobs r = done ++ todo) (herr : q.err = none) {x x' : Worker K V E}
    {q' : Pool K V E} (hstep : WorkerStep c q x q' x') (hx : x.e = none)
    (hw : job w = x.stage.job) (hconf : ∀ k p, x.stage.job = some (k, p) → p.Confined k (c.Below r)) :
    x'.e.isSome = true ∨
      (∃ pre', Exact c C log done pre' q' (update job w x'.stage.job)) ∧ q'.err = none ∧ x'.e = none := by
  obtain ⟨todo, htodo⟩ := hdone
  have hnd : done.Nodup := (nodup_append.1 (htodo ▸ hc.nodup r)).1
  -- a step that leaves the worker outside a job
  have hsame : ∀ {q' : Pool K V E}, job w = none → q'.started = q.started → q'.pending = q.pending →
      q'.store = q.store → ∃ pre', Exact c C log done pre' q' (update job w none) := by
    intro q' hjob hs hp hσ
    refine ⟨pre, ?_⟩
    rw [← hjob, update_eq_self]
    exact h.congr hs hp hσ
  cases hstep with
  | enter => exact .inr ⟨hsame hw rfl rfl rfl, herr, hx⟩
  | sleep => exact .inr ⟨hsame hw rfl rfl rfl, herr, hx⟩
  | wake => exact .inr ⟨hsame hw rfl rfl rfl, herr, hx⟩
  | finish => exact .inr ⟨hsame hw rfl rfl rfl, herr, hx⟩
  | leave => exact .inr ⟨hsame hw rfl rfl rfl, herr, hx⟩
  | drop hp hsome => simp [herr] at hsome
  | take hp _ => exact .inr ⟨⟨_, h.take hnd hp hw⟩, herr, hx⟩
  | @read e k j next =>
    have hj : c.Below r j := (hconf k _ rfl).1
    have hpre : ∀ i ∈ pre, i ∈ c.jobs r := by
      intro i hi
      by_contra hni
      exact h.notMem_pre (fun hmem => hni (htodo ▸ mem_append_left _ hmem)) hi
    have hjpre : j ∉ pre := fun hmem => hj r (Nat.le_refl r) hr (hpre j hmem)
    have hjk : j ≠ k := fun heq => hjpre (heq ▸ (h.run w k _ hw).1)
    have hadv := h.advance hw (next (q.store j)) (q.store k) (by
      simp only [CellProg.exec, update_of_ne hjk, h.off j hjpre])
    rw [update_eq_self] at hadv
    exact .inr ⟨⟨pre, hadv⟩, herr, hx⟩
  | @write e k j v next =>
    obtain rfl : j = k := (hconf k _ rfl).1
    refine .inr ⟨⟨pre, h.advance hw _ _ ?_⟩, herr, hx⟩
    simp only [CellProg.exec, update_idem]
  | ended => exact .inr ⟨⟨pre, h.finish hw⟩, herr, hx⟩
  | caught => exact .inl rfl
  | store =>
    refine .inr ⟨hsame hw rfl rfl rfl, ?_, hx⟩
    simpa [herr] using hx

end Exact

/-! ## What holds in every reachable state -/

variable (s : State K V E ω)

/-- The job each worker is in. -/
def State.job (w : ω) : Option (K × CellProg K V E) := (s.workers w).stage.job

/-- Some job has thrown. -/
def State.Faulty : Prop :=
  s.pool.err.isSome = true ∨ ∃ w, (s.workers w).e.isSome = true

/-- No error anywhere. -/
def State.Clean : Prop := s.pool.err = none ∧ ∀ w, (s.workers w).e = none

/-- Between two rounds: nothing queued, no job in progress. -/
def State.Quiet : Prop := s.pool.pending = [] ∧ ∀ w, s.job w = none

/-- The store and the log are those of the first `r` rounds run one job after the
other. -/
def Settled (c : Client K V E) (σ : K → V) (r : Nat) (s : State K V E ω) : Prop :=
  s.Quiet ∧ s.Clean ∧ (∀ r' < r, c.more r' = true) ∧ rounds c r σ = .ok (s.pool.store, s.pool.started)

/-- Round `r` is under way, the caller has looked at the keys `done` and has
found those of `due` blank without having queued them yet. -/
structure Busy (c : Client K V E) (σ : K → V) (r : Nat) (done due : List K) (s : State K V E ω) : Prop where
  more : c.Enters r
  pending : ∀ k ∈ s.pool.pending, k ∈ c.jobs r
  running : ∀ w k p, s.job w = some (k, p) → k ∈ c.jobs r ∧ p.Confined k (c.Below r)
  reported : ∀ w, (s.workers w).e.isSome = true → (s.workers w).stage = .storing ∨ s.pool.err.isSome = true
  exact : ∃ C log, rounds c r σ = .ok (C, log) ∧
    (s.Faulty ∨ s.Clean ∧ (∀ k ∈ due, c.blank (C k) = true) ∧ ∃ pre, Exact c C log done pre s.pool s.job)

/-- What holds at each place of the calling thread. -/
def Phase (c : Client K V E) (σ : K → V) (s : State K V E ω) : Producer K E → Prop
  | .head r => Settled c σ r s
  | .each r todo => ∃ done, c.jobs r = done ++ todo ∧ Busy c σ r done [] s
  | .adding r k todo => ∃ done, c.jobs r = done ++ k :: todo ∧ Busy c σ r done [k] s
  | .waiting r => Busy c σ r (c.jobs r) [] s
  | .joining => ∃ r, c.more r = false ∧ Settled c σ r s
  | .joinAll => ∃ r, c.more r = false ∧ Settled c σ r s
  | .returned => ∃ r, c.more r = false ∧ Settled c σ r s
  | .unwinding _ => s.Quiet
  | .unwindAll _ => s.Quiet
  | .threw _ => s.Quiet
  | .refused => s.Quiet

/-- The invariant of the pool and its caller. -/
structure Inv [Fintype ω] (c : Client K V E) (σ : K → V) (s : State K V E ω) : Prop where
  count : s.pool.workerCount = ∑ w, (s.workers w).stage.counted.toNat
  phase : Phase c σ s s.producer

section WorkerSteps

variable {c : Client K V E} {q' : Pool K V E} {x' : Worker K V E}

variable {x : Worker K V E} {q : Pool K V E}

section

variable (h : WorkerStep c q x q' x')
include h

/-- `worker_count` moves with the worker's stage. A worker that is counted keeps
the counter positive, so no decrement is cut off at zero. -/
theorem WorkerStep.count (hpos : x.stage.counted.toNat ≤ q.workerCount) :
    q'.workerCount + x.stage.counted.toNat = q.workerCount + x'.stage.counted.toNat := by
  cases h with
  | drop hp herr =>
    cases q.joinRequested <;> simp [Stage.counted]
  | _ => simp_all [Stage.counted]

/-- A worker never takes an error back. -/
theorem WorkerStep.faulty :
    (q.err.isSome = true → q'.err.isSome = true) ∧ (x.e.isSome = true → x'.e.isSome = true) := by
  cases h with
  | store =>
    refine ⟨fun herr => ?_, id⟩
    simp [herr]
  | caught => exact ⟨id, fun _ => rfl⟩
  | _ => exact ⟨id, id⟩

/-- With nothing queued, a worker outside a job stays outside and touches only
`worker_count`, or copies its own error. -/
theorem WorkerStep.quiet (hp : q.pending = []) (hx : x.stage.job = none) :
    x'.stage.job = none ∧ x'.e = x.e ∧ q'.pending = [] ∧ q'.store = q.store ∧ q'.started = q.started ∧
      (q.err = none → x.e = none → q'.err = none) := by
  cases h with
  | drop hcons _ => simp [hp] at hcons
  | take hcons _ => simp [hp] at hcons
  | read => simp [Stage.job] at hx
  | write => simp [Stage.job] at hx
  | ended => simp [Stage.job] at hx
  | caught => simp [Stage.job] at hx
  | store =>
    refine ⟨rfl, rfl, hp, rfl, rfl, fun herr he => ?_⟩
    simp only [herr, Option.isSome_none]
    exact he
  | _ => exact ⟨rfl, rfl, hp, rfl, rfl, fun herr _ => herr⟩

/-- Where a job in progress comes from: off the queue, or it was in progress. -/
theorem WorkerStep.running {P : K → Prop} {R : K → Prop} (hpend : ∀ k ∈ q.pending, P k ∧ (c.body k).Confined k R)
    (hrun : ∀ k p, x.stage.job = some (k, p) → P k ∧ p.Confined k R) :
    (∀ k ∈ q'.pending, k ∈ q.pending) ∧ ∀ k p, x'.stage.job = some (k, p) → P k ∧ p.Confined k R := by
  cases h with
  | drop hcons _ =>
    refine ⟨by simp, ?_⟩
    intro k p hjob
    cases hj : q.joinRequested <;> simp [hj, Stage.job] at hjob
  | take hcons _ =>
    refine ⟨fun k hk => hcons ▸ mem_cons_of_mem _ hk, ?_⟩
    intro k p hjob
    simp only [Stage.job, Option.some.injEq, Prod.mk.injEq] at hjob
    obtain ⟨rfl, rfl⟩ := hjob
    exact hpend _ (hcons ▸ mem_cons_self ..)
  | read =>
    refine ⟨fun k hk => hk, ?_⟩
    intro k p hjob
    simp only [Stage.job, Option.some.injEq, Prod.mk.injEq] at hjob
    obtain ⟨rfl, rfl⟩ := hjob
    exact ⟨(hrun _ _ rfl).1, (hrun _ _ rfl).2.2 _⟩
  | write =>
    refine ⟨fun k hk => hk, ?_⟩
    intro k p hjob
    simp only [Stage.job, Option.some.injEq, Prod.mk.injEq] at hjob
    obtain ⟨rfl, rfl⟩ := hjob
    exact ⟨(hrun _ _ rfl).1, (hrun _ _ rfl).2.2⟩
  | _ => exact ⟨fun k hk => hk, fun k p hjob => by simp [Stage.job] at hjob⟩

/-- A worker that holds an error is about to store it, or `err` is set. -/
theorem WorkerStep.reported
    (hx : x.e.isSome = true → x.stage = .storing ∨ q.err.isSome = true) (hx' : x'.e.isSome = true) :
    x'.stage = .storing ∨ q'.err.isSome = true := by
  cases h with
  | ended => exact .inl rfl
  | caught => exact .inl rfl
  | @store e =>
    right
    show (if q.err.isSome then q.err else e).isSome = true
    by_cases herr : q.err.isSome = true
    · rw [if_pos herr]
      exact herr
    · rw [if_neg herr]
      exact hx'
  | drop _ herr => exact .inr herr
  | _ => exact .inr ((hx hx').resolve_left (by simp))

end

variable [DecidableEq ω] {σ : K → V} {r : Nat} {s : State K V E ω} {w : ω}

/-- The state after worker `w` has moved to `x'` and the pool to `q'`. -/
def State.moved (s : State K V E ω) (w : ω) (q' : Pool K V E) (x' : Worker K V E) : State K V E ω :=
  { s with pool := q', workers := update s.workers w x' }

section
omit [DecidableEq K]

theorem State.job_moved : (s.moved w q' x').job = update s.job w x'.stage.job := by
  funext w'
  by_cases hw : w' = w
  · subst hw
    simp [State.job, State.moved]
  · simp [State.job, State.moved, update_of_ne hw]

theorem State.workers_moved_of_ne {w' : ω} (hw : w' ≠ w) : (s.moved w q' x').workers w' = s.workers w' := by
  simp [State.moved, update_of_ne hw]

theorem State.workers_moved_self : (s.moved w q' x').workers w = x' := by
  simp [State.moved]

end

theorem count_moved [Fintype ω] (hcount : s.pool.workerCount = ∑ w, (s.workers w).stage.counted.toNat)
    (h : WorkerStep c s.pool (s.workers w) q' x') :
    (s.moved w q' x').pool.workerCount = ∑ w', ((s.moved w q' x').workers w').stage.counted.toNat := by
  have hle : (s.workers w).stage.counted.toNat ≤ s.pool.workerCount := by
    rw [hcount]
    exact Finset.single_le_sum (f := fun w => (s.workers w).stage.counted.toNat) (fun _ _ => Nat.zero_le _)
      (Finset.mem_univ w)
  have hstep := h.count hle
  have hrest : ∑ w' ∈ Finset.univ.erase w, ((s.moved w q' x').workers w').stage.counted.toNat =
      ∑ w' ∈ Finset.univ.erase w, (s.workers w').stage.counted.toNat := by
    apply Finset.sum_congr rfl
    intro w' hw'
    rw [State.workers_moved_of_ne (Finset.ne_of_mem_erase hw')]
  have h1 := Finset.add_sum_erase Finset.univ (fun w' => ((s.moved w q' x').workers w').stage.counted.toNat)
    (Finset.mem_univ w)
  have h2 := Finset.add_sum_erase Finset.univ (fun w' => (s.workers w').stage.counted.toNat) (Finset.mem_univ w)
  simp only [State.workers_moved_self, hrest] at h1
  rw [← h1]
  show q'.workerCount = _
  omega

theorem Settled.moved (h : Settled c σ r s) (hstep : WorkerStep c s.pool (s.workers w) q' x') :
    Settled c σ r (s.moved w q' x') := by
  obtain ⟨⟨hp, hjob⟩, ⟨herr, he⟩, hmore, hrounds⟩ := h
  obtain ⟨hjob', he', hp', hσ, hlog, herr'⟩ := hstep.quiet hp (hjob w)
  refine ⟨⟨hp', ?_⟩, ⟨herr' herr (he w), ?_⟩, hmore, ?_⟩
  · intro w'
    rw [State.job_moved]
    by_cases hw : w' = w
    · rw [hw, update_self, hjob']
    · rw [update_of_ne hw, hjob w']
  · intro w'
    by_cases hw : w' = w
    · rw [hw, State.workers_moved_self, he', he w]
    · rw [State.workers_moved_of_ne hw, he w']
  · show rounds c r σ = .ok (q'.store, q'.started)
    rw [hσ, hlog]
    exact hrounds

theorem Quiet.moved (h : s.Quiet) (hstep : WorkerStep c s.pool (s.workers w) q' x') :
    (s.moved w q' x').Quiet := by
  obtain ⟨hjob', -, hp', -⟩ := hstep.quiet h.1 (h.2 w)
  refine ⟨hp', fun w' => ?_⟩
  rw [State.job_moved]
  by_cases hw : w' = w
  · rw [hw, update_self, hjob']
  · rw [update_of_ne hw, h.2 w']

theorem Busy.moved {done due todo : List K} (hc : c.Staged) (hdone : c.jobs r = done ++ todo)
    (h : Busy c σ r done due s) (hstep : WorkerStep c s.pool (s.workers w) q' x') :
    Busy c σ r done due (s.moved w q' x') := by
  have hpend : ∀ k ∈ s.pool.pending, k ∈ c.jobs r ∧ (c.body k).Confined k (c.Below r) :=
    fun k hk => ⟨h.pending k hk, hc.confined r h.more k (h.pending k hk)⟩
  obtain ⟨hsub, hrun⟩ := hstep.running hpend fun k p hjob => h.running w k p hjob
  constructor
  case more => exact h.more
  case pending => exact fun k hk => h.pending k (hsub k hk)
  case running =>
    intro w' k p hjob
    rw [State.job_moved] at hjob
    by_cases hw : w' = w
    · rw [hw, update_self] at hjob
      exact hrun k p hjob
    · rw [update_of_ne hw] at hjob
      exact h.running w' k p hjob
  case reported =>
    intro w' hw'
    by_cases hw : w' = w
    · subst hw
      rw [State.workers_moved_self] at hw' ⊢
      exact hstep.reported (h.reported w') hw'
    · rw [State.workers_moved_of_ne hw] at hw' ⊢
      exact (h.reported w' hw').imp_right hstep.faulty.1
  case exact =>
    obtain ⟨C, log, hrounds, hcase⟩ := h.exact
    refine ⟨C, log, hrounds, ?_⟩
    rcases hcase with hfaulty | ⟨⟨herr, he⟩, hdue, pre, hex⟩
    · left
      rcases hfaulty with herr | ⟨w', he⟩
      · exact .inl (hstep.faulty.1 herr)
      · right
        by_cases hw : w' = w
        · subst hw
          exact ⟨w', by rw [State.workers_moved_self]; exact hstep.faulty.2 he⟩
        · exact ⟨w', by rw [State.workers_moved_of_ne hw]; exact he⟩
    · rcases hex.workerStep hc h.more ⟨todo, hdone⟩ herr hstep (he w) rfl
        (fun k p hjob => (h.running w k p hjob).2) with he' | ⟨⟨pre', hex'⟩, herr', he'⟩
      · exact .inl (.inr ⟨w, by rw [State.workers_moved_self]; exact he'⟩)
      · refine .inr ⟨⟨herr', fun w' => ?_⟩, hdue, pre', by rw [State.job_moved]; exact hex'⟩
        by_cases hw : w' = w
        · rw [hw, State.workers_moved_self, he']
        · rw [State.workers_moved_of_ne hw, he w']

theorem Phase.moved (hc : c.Staged) (hstep : WorkerStep c s.pool (s.workers w) q' x') :
    ∀ d : Producer K E, Phase c σ s d → Phase c σ (s.moved w q' x') d
  | .head _, h => Settled.moved h hstep
  | .each _ _, ⟨done, hdone, h⟩ => ⟨done, hdone, h.moved hc hdone hstep⟩
  | .adding _ _ _, ⟨done, hdone, h⟩ => ⟨done, hdone, h.moved hc hdone hstep⟩
  | .waiting r, h => Busy.moved hc (append_nil (c.jobs r)).symm h hstep
  | .joining, ⟨r, hr, h⟩ => ⟨r, hr, h.moved hstep⟩
  | .joinAll, ⟨r, hr, h⟩ => ⟨r, hr, h.moved hstep⟩
  | .returned, ⟨r, hr, h⟩ => ⟨r, hr, h.moved hstep⟩
  | .unwinding _, h => Quiet.moved h hstep
  | .unwindAll _, h => Quiet.moved h hstep
  | .threw _, h => Quiet.moved h hstep
  | .refused, h => Quiet.moved h hstep

end WorkerSteps

section ProducerSteps

variable {c : Client K V E} {σ : K → V} {r : Nat} {s : State K V E ω}

variable {done : List K}

/-- Where the caller stands in the round is not part of `Busy`. -/
theorem Busy.at {due : List K} (h : Busy c σ r done due s) (d : Producer K E) :
    Busy c σ r done due { s with producer := d } :=
  ⟨h.more, h.pending, h.running, h.reported, h.exact⟩

/-- A round begins. -/
theorem Busy.start (h : Settled c σ r s) (hmore : c.more r = true) : Busy c σ r [] [] s := by
  obtain ⟨⟨hp, hjob⟩, hclean, hless, hrounds⟩ := h
  constructor
  case more =>
    intro r' hr'
    rcases Nat.lt_or_eq_of_le hr' with hlt | rfl
    · exact hless r' hlt
    · exact hmore
  case pending => simp [hp]
  case running => exact fun w k p hw => by simp [hjob w] at hw
  case reported => exact fun w hw => by simp [hclean.2 w] at hw
  case exact =>
    refine ⟨s.pool.store, s.pool.started, hrounds, .inr ⟨hclean, by simp, [], ?_⟩⟩
    constructor
    case started => simp
    case queue => simp [hp]
    case off => exact fun _ _ => rfl
    case run => exact fun w k p hw => by simp [hjob w] at hw
    case apart => exact fun w w' k p p' hw => by simp [hjob w] at hw
    case settled => simp

variable {k : K} {todo : List K}

/-- A key the caller comes to has not been touched by this round. -/
theorem Exact.fresh {C : K → V} {log pre : List K} {q : Pool K V E}
    {job : ω → Option (K × CellProg K V E)} (hc : c.Staged) (hjobs : c.jobs r = done ++ k :: todo)
    (h : Exact c C log done pre q job) : q.store k = C k := by
  refine h.off k (h.notMem_pre fun hmem => ?_)
  have hnd : (done ++ k :: todo).Nodup := hjobs ▸ hc.nodup r
  exact (nodup_append.1 hnd).2.2 k hmem k (mem_cons_self ..) rfl

/-- The caller sees that the cell of `k` is taken, or that the pool refuses work. -/
theorem Busy.pass {due : List K} (h : Busy c σ r done due s)
    (hk : ∀ C log pre, rounds c r σ = .ok (C, log) → s.Clean → (∀ j ∈ due, c.blank (C j) = true) →
      Exact c C log done pre s.pool s.job → c.blank (C k) = false) :
    Busy c σ r (done ++ [k]) [] s :=
  { h with
    exact := by
      obtain ⟨C, log, hrounds, hcase⟩ := h.exact
      refine ⟨C, log, hrounds, hcase.imp_right ?_⟩
      rintro ⟨hclean, hdue, pre, hex⟩
      exact ⟨hclean, by simp, pre, hex.look (hk C log pre hrounds hclean hdue hex)⟩ }

/-- The caller sees that the cell of `k` is blank and goes into `add`. -/
theorem Busy.due (hc : c.Staged) (hjobs : c.jobs r = done ++ k :: todo)
    (h : Busy c σ r done [] s) (hk : c.blank (s.pool.store k) = true) : Busy c σ r done [k] s :=
  { h with
    exact := by
      obtain ⟨C, log, hrounds, hcase⟩ := h.exact
      refine ⟨C, log, hrounds, hcase.imp_right ?_⟩
      rintro ⟨hclean, -, pre, hex⟩
      refine ⟨hclean, ?_, pre, hex⟩
      intro j hj
      obtain rfl := mem_singleton.1 hj
      rw [← hex.fresh hc hjobs]
      exact hk }

/-- `add` puts `k` at the end of the queue. -/
theorem Busy.add (hjobs : c.jobs r = done ++ k :: todo) (h : Busy c σ r done [k] s) :
    Busy c σ r (done ++ [k]) [] { s with pool := { s.pool with pending := s.pool.pending ++ [k] } } :=
  { h with
    pending := by
      intro j hj
      rcases mem_append.1 hj with hj | hj
      · exact h.pending j hj
      · rw [mem_singleton.1 hj, hjobs]
        simp
    exact := by
      obtain ⟨C, log, hrounds, hcase⟩ := h.exact
      refine ⟨C, log, hrounds, hcase.imp_right ?_⟩
      rintro ⟨hclean, hdue, pre, hex⟩
      exact ⟨hclean, by simp, pre, hex.add (hdue k (by simp))⟩ }

variable [Fintype ω]

omit [DecidableEq K] in
/-- With `worker_count` zero no worker is in a job or about to report one. -/
theorem idle_of_count (hcount : s.pool.workerCount = ∑ w, (s.workers w).stage.counted.toNat)
    (hzero : s.pool.workerCount = 0) (w : ω) : s.job w = none ∧ (s.workers w).stage ≠ .storing := by
  have hw : (s.workers w).stage.counted.toNat = 0 :=
    Finset.sum_eq_zero_iff.1 (hcount.symm.trans hzero) w (Finset.mem_univ w)
  unfold State.job
  cases hstage : (s.workers w).stage with
  | running k p => simp [hstage, Stage.counted] at hw
  | storing => simp [hstage, Stage.counted] at hw
  | _ => simp [Stage.job]

/-- `wait` returns: the round is settled. -/
theorem Busy.wait (hc : c.Staged)
    (hcount : s.pool.workerCount = ∑ w, (s.workers w).stage.counted.toNat)
    (h : Busy c σ r (c.jobs r) [] s) (hzero : s.pool.workerCount = 0) (hp : s.pool.pending = [])
    (herr : s.pool.err = none) : Settled c σ (r + 1) s := by
  have hidle := idle_of_count hcount hzero
  have hnoe : ∀ w, (s.workers w).e = none := by
    intro w
    by_contra hne
    rcases h.reported w (Option.isSome_iff_ne_none.2 hne) with hst | hsome
    · exact (hidle w).2 hst
    · simp [herr] at hsome
  refine ⟨⟨hp, fun w => (hidle w).1⟩, ⟨herr, hnoe⟩, fun r' hr' => h.more r' (Nat.le_of_lt_succ hr'), ?_⟩
  obtain ⟨C, log, hrounds, hcase⟩ := h.exact
  rcases hcase with (hsome | ⟨w, hsome⟩) | ⟨-, -, pre, hex⟩
  · simp [herr] at hsome
  · simp [hnoe w] at hsome
  · obtain ⟨hpass, hlog⟩ := hex.barrier hc h.more hp fun w => (hidle w).1
    show (rounds c r σ >>= _) = _
    rw [hrounds, hlog]
    show (Lib.pass c.blank c.body (c.jobs r) C).map _ = _
    rw [hpass]
    rfl

variable (c σ) in
theorem Inv.start : Inv c σ (State.start σ : State K V E ω) := by
  refine ⟨by simp [State.start, Pool.start, Stage.counted], ?_⟩
  refine ⟨⟨rfl, fun w => rfl⟩, ⟨rfl, fun w => rfl⟩, fun r' hr' => ?_, rfl⟩
  exact absurd hr' (Nat.not_lt_zero r')

variable [DecidableEq ω]

/-- **One step of any thread keeps the invariant.** -/
theorem Inv.step (hc : c.Staged) {s' : State K V E ω} (h : Inv c σ s) (hstep : Step c s s') :
    Inv c σ s' := by
  obtain ⟨hcount, hphase⟩ := h
  cases hstep with
  | worker w hstep => exact ⟨count_moved hcount hstep, Phase.moved hc hstep _ hphase⟩
  | @producer q' d' hstep =>
    generalize hd : s.producer = d at hstep hphase
    cases hstep with
    | more hmore => exact ⟨hcount, [], rfl, (Busy.start hphase hmore).at _⟩
    | noMore hmore => exact ⟨hcount, _, hmore, hphase⟩
    | skip hk =>
      obtain ⟨done, hjobs, hbusy⟩ := hphase
      refine ⟨hcount, done ++ [_], by simpa using hjobs, (hbusy.pass ?_).at _⟩
      intro C log pre _ _ _ hex
      rw [← hex.fresh hc hjobs]
      exact hk
    | add hk =>
      obtain ⟨done, hjobs, hbusy⟩ := hphase
      exact ⟨hcount, done, hjobs, (hbusy.due hc hjobs hk).at _⟩
    | addNothing herr =>
      obtain ⟨done, hjobs, hbusy⟩ := hphase
      refine ⟨hcount, done ++ [_], by simpa using hjobs, (hbusy.pass ?_).at _⟩
      intro C log pre _ hclean _ _
      simp [hclean.1] at herr
    | addPending herr hspace =>
      obtain ⟨done, hjobs, hbusy⟩ := hphase
      exact ⟨hcount, done ++ [_], by simpa using hjobs, (hbusy.add hjobs).at _⟩
    | wait =>
      obtain ⟨done, hjobs, hbusy⟩ := hphase
      rw [append_nil] at hjobs
      rw [← hjobs] at hbusy
      exact ⟨hcount, hbusy.at _⟩
    | waited hzero hp herr =>
      have hsettled := Busy.wait hc hcount hphase hzero hp herr
      exact ⟨hcount, hsettled⟩
    | waitThrows hzero hp _ => exact ⟨hcount, hp, fun w => (idle_of_count hcount hzero w).1⟩
    | join => exact ⟨hcount, hphase⟩
    | joined => exact ⟨hcount, hphase⟩
    | joinThrows _ herr =>
      obtain ⟨r, -, -, hclean, -⟩ := hphase
      simp [hclean.1] at herr
    | unwind => exact ⟨hcount, hphase⟩
    | unwound => exact ⟨hcount, hphase⟩

/-- **The invariant holds along every run.** -/
theorem Inv.steps (hc : c.Staged) {s' : State K V E ω} (h : Inv c σ s) (hsteps : Steps c s s') :
    Inv c σ s' := by
  induction hsteps with
  | refl => exact h
  | tail _ hstep ih => exact ih.step hc hstep

end ProducerSteps

/-! ## Cells that no later round owns -/

/-- The caller is in round `r` or past it. -/
def Producer.Reached (r : Nat) : Producer K E → Prop
  | head r' => r ≤ r'
  | each r' _ => r ≤ r'
  | adding r' _ _ => r ≤ r'
  | waiting r' => r ≤ r'
  | _ => True

section Final

variable {c : Client K V E} {σ : K → V} {r : Nat} {s s' : State K V E ω}

/-- A job in progress belongs to the round the caller is in. -/
theorem Phase.running_round {w : ω} {k : K} {p : CellProg K V E} (hjob : s.job w = some (k, p)) :
    ∀ {d : Producer K E}, Phase c σ s d → ∃ r, c.Enters r ∧ k ∈ c.jobs r ∧ p.Confined k (c.Below r) ∧
      d.Reached r ∧ ∀ r', d.Reached r' → r' ≤ r
  | .head _, h => by simp [h.1.2 w] at hjob
  | .each r _, ⟨_, _, h⟩ => ⟨r, h.more, (h.running w k p hjob).1, (h.running w k p hjob).2, Nat.le_refl r,
      fun _ h => h⟩
  | .adding r _ _, ⟨_, _, h⟩ => ⟨r, h.more, (h.running w k p hjob).1, (h.running w k p hjob).2, Nat.le_refl r,
      fun _ h => h⟩
  | .waiting r, h => ⟨r, Busy.more h, (Busy.running h w k p hjob).1, (Busy.running h w k p hjob).2,
      Nat.le_refl r, fun _ h => h⟩
  | .joining, ⟨_, _, h⟩ => by simp [h.1.2 w] at hjob
  | .joinAll, ⟨_, _, h⟩ => by simp [h.1.2 w] at hjob
  | .returned, ⟨_, _, h⟩ => by simp [h.1.2 w] at hjob
  | .unwinding _, h => by simp [h.2 w] at hjob
  | .unwindAll _, h => by simp [h.2 w] at hjob
  | .threw _, h => by simp [h.2 w] at hjob
  | .refused, h => by simp [h.2 w] at hjob

variable [DecidableEq ω]

theorem Reached.step (h : s.producer.Reached r) (hstep : Step c s s') : s'.producer.Reached r := by
  cases hstep with
  | worker w hstep => exact h
  | producer hstep =>
    generalize hd : s.producer = d at hstep h
    cases hstep with
    | waited => exact Nat.le_succ_of_le h
    | _ => first | exact h | trivial

/-- A step changes only cells of the round the caller is in. -/
theorem store_step [Fintype ω] (h : Inv c σ s) (hr : s.producer.Reached r) {j : K} (hj : c.Below r j)
    (hstep : Step c s s') : s'.pool.store j = s.pool.store j := by
  cases hstep with
  | producer hstep =>
    generalize hd : s.producer = d at hstep
    cases hstep <;> rfl
  | worker w hstep =>
    generalize hx : s.workers w = x at hstep
    cases hstep with
    | @write e k i v next =>
      have hjob : s.job w = some (k, .write i v next) := by
        unfold State.job
        rw [hx]
        rfl
      obtain ⟨r', hr', hk, hconf, -, hmax⟩ := h.phase.running_round hjob
      obtain rfl : i = k := hconf.1
      have hne : j ≠ i := fun heq => hj r' (hmax r hr) hr' (heq ▸ hk)
      exact update_of_ne hne ..
    | _ => rfl

/-- **A cell that no job of this round or a later one owns is final.** -/
theorem store_final [Fintype ω] (hc : c.Staged) (h : Inv c σ s) (hr : s.producer.Reached r) {j : K}
    (hj : c.Below r j) (hsteps : Steps c s s') : s'.pool.store j = s.pool.store j := by
  have hboth : s'.producer.Reached r ∧ s'.pool.store j = s.pool.store j := by
    induction hsteps with
    | refl => exact ⟨hr, rfl⟩
    | tail hpre hstep ih =>
      exact ⟨Reached.step ih.1 hstep, (store_step (h.steps hc hpre) ih.1 hj hstep).trans ih.2⟩
  exact hboth.2

end Final

variable {σ : K → V} {c : Client K V E}

/-- One more round is one more pass. -/
theorem rounds_succ_ok {r : Nat} {C' : K → V} {log' : List K}
    (h : rounds c (r + 1) σ = .ok (C', log')) : ∃ C log l, rounds c r σ = .ok (C, log) ∧
      pass c.blank c.body (c.jobs r) C = .ok (C', l) ∧ log' = log ++ l := by
  rcases hrounds : rounds c r σ with e | ⟨C, log⟩
  · simp [rounds, hrounds, bind, Except.bind] at h
  · rcases hpass : pass c.blank c.body (c.jobs r) C with e | ⟨τ, l⟩
    · simp [rounds, hrounds, hpass, bind, Except.bind, Except.map] at h
    · simp only [rounds, hrounds, hpass, bind, Except.bind, Except.map, Except.ok.injEq, Prod.mk.injEq] at h
      obtain ⟨rfl, rfl⟩ := h
      exact ⟨C, log, l, rfl, hpass, rfl⟩

omit [DecidableEq K] in
/-- A job of round `r` has not been run by an earlier round. -/
theorem fresh_of_job (hc : c.Staged) {r : Nat} (hr : c.Enters r) {log : List K}
    (hlog : log = ((range r).flatMap fun i => (c.jobs i).filter fun k => c.blank (σ k))) {k : K}
    (hk : k ∈ c.jobs r) : k ∉ log := by
  intro hmem
  obtain ⟨i, hi, hki⟩ := mem_flatMap.1 (hlog ▸ hmem)
  exact hc.apart i r (mem_range.1 hi) hr k (mem_filter.1 hki).1 hk

/-- The rounds run the jobs of the cells that were blank at the very beginning, and change no other cell. Each job,
run again on the store they leave with its own cell as it was at the beginning, changes nothing else and finds the
same. -/
theorem rounds_spec (hc : c.Staged) : ∀ {r : Nat} {C : K → V} {log : List K},
    (∀ i < r, c.more i = true) → rounds c r σ = .ok (C, log) →
    log = ((range r).flatMap fun i => (c.jobs i).filter fun k => c.blank (σ k)) ∧
      (∀ j, j ∉ log → C j = σ j) ∧ ∀ k ∈ log, (c.body k).exec (update C k (σ k)) = .ok C := by
  intro r
  induction r with
  | zero =>
    intro C log _ h
    obtain ⟨rfl, rfl⟩ := h
    simp
  | succ r ih =>
    intro C' log' hmore h
    have hr : c.Enters r := fun i hi => hmore i (Nat.lt_succ_of_le hi)
    obtain ⟨C, log, l, hrounds, hpass, rfl⟩ := rounds_succ_ok h
    obtain ⟨hlog, hC, hruns⟩ := ih (fun i hi => hmore i (Nat.lt_succ_of_lt hi)) hrounds
    have hjobs : ∀ k ∈ c.jobs r, ¬ c.Below r k ∧ (c.body k).Confined k (c.Below r) :=
      fun k hk => ⟨fun hb => hb r (Nat.le_refl r) hr hk, hc.confined r hr k hk⟩
    obtain ⟨hl, hframe, hsettles⟩ := pass_spec (hc.nodup r) hjobs hpass
    refine ⟨?_, fun j hj => ?_, fun k hk => ?_⟩
    · rw [range_succ, flatMap_append, hl]
      simp only [flatMap_cons, flatMap_nil, append_nil]
      congr 1
      refine filter_congr fun k hk => ?_
      rw [hC k (fresh_of_job hc hr hlog hk)]
    · rw [hframe j fun hmem => hj (mem_append_right _ hmem), hC j fun hmem => hj (mem_append_left _ hmem)]
    -- what a job of round `i ≤ r` reads is the same before and after round `r`
    have hagree : ∀ i ≤ r, ∀ j, c.Below i j → C' j = C j := by
      intro i hi j hj
      exact hframe j fun hmem => hj r hi hr (mem_filter.1 (hl ▸ hmem)).1
    rcases mem_append.1 hk with hk | hk
    · obtain ⟨i, hi, hki⟩ := mem_flatMap.1 (hlog ▸ hk)
      have hi : i < r := mem_range.1 hi
      have hki : k ∈ c.jobs i := (mem_filter.1 hki).1
      have hir : c.Enters i := fun i' hi' => hr i' (by omega)
      obtain ⟨v, hv, hrun⟩ := CellProg.exec_update_frame (hagree i (Nat.le_of_lt hi))
        (fun hb => hb i (Nat.le_refl i) hir hki) (hc.confined i hir k hki) (hruns k hk)
      have hvk : v = C' k := by
        have := congrFun hv k
        rw [hframe k fun hmem => hc.apart i r hi hr k hki (mem_filter.1 (hl ▸ hmem)).1]
        simpa using this.symm
      rw [hvk, update_eq_self] at hrun
      exact hrun
    · have hkr : k ∈ c.jobs r := (mem_filter.1 (hl ▸ hk)).1
      have hset : (c.body k).exec C = .ok (update C k (C' k)) := hsettles k hk
      have hCk : C k = σ k := hC k (fresh_of_job hc hr hlog hkr)
      nth_rewrite 1 [← update_eq_self k C] at hset
      obtain ⟨v, hv, hrun⟩ := CellProg.exec_update_frame (hagree r (Nat.le_refl r)) (hjobs k hkr).1 (hjobs k hkr).2 hset
      have hvk : v = C' k := by
        have := congrFun hv k
        simpa using this.symm
      rw [hvk, update_eq_self, hCk] at hrun
      exact hrun

end Sbmt.Search.ThreadPool
