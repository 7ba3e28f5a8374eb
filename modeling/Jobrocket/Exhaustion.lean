import Jobrocket.Worker

/-! # An exhausted pool

`allocate_job` gives null when all of its thread's jobs are live. `JobGroup::run` has counted
the job by then and writes to it; `make_job_and_wait` schedules the null pointer and waits
for it. A dereference of null is an outcome of its own here.
-/
namespace Jobrocket
open Library Memory

namespace JobSystem

inductive Outcome where
  | returned
  | nullDereference
  deriving DecidableEq

/-- `job_count_.increment()`, with the counter in memory. -/
def incrementAt (m : Memory) (counter : ℕ) : Memory :=
  m.store 4 counter (AtomicCounter.increment (.ofNat (m.load 4 counter))).toNat

def makeJob (s : JobSystem) (i : ℕ) (function : List UInt8) : ℕ × JobSystem :=
  match s.allocateJob i function with
  | (.ok job, s) => (job, s)
  | (.error _, s) => (nullptr, s)

/-- `JobGroup::run`, on a thread with index `i` whose worker is `w`. -/
def groupRun (s : JobSystem) (w i group : ℕ) (function : List UInt8) : Outcome × JobSystem :=
  let s := { s with memory := incrementAt s.memory group }
  let (job, s) := s.makeJob i function
  if job = nullptr then (.nullDereference, s)
  else
    let s := { s with memory := Job.setGroupCounter s.memory job group }
    (.returned, s.scheduleJob w job)

/-- The loop of `wait`, if it ends within a number of turns. -/
def wait : ℕ → JobSystem → ℕ → ℕ → Option (Outcome × JobSystem)
  | 0, _, _, _ => none
  | turns + 1, s, w, job =>
    if job = nullptr then some (.nullDereference, s)
    else if Job.state s.memory job ≠ Job.State.completed.code then
      wait turns (s.tryRunJob w).2 w job
    else some (.returned, s)

def makeJobAndWait (turns : ℕ) (s : JobSystem) (w i : ℕ) (function : List UInt8) :
    Option (Outcome × JobSystem) :=
  let (job, s) := s.makeJob i function
  wait turns (s.scheduleJob w job) w job

/-- The call returns, and the group's counter, `active_jobs_` and the queues are as before. -/
structure Intact (s : JobSystem) (group : ℕ) (r : Outcome × JobSystem) : Prop where
  returned : r.1 = .returned
  counter : r.2.memory.load 4 group = s.memory.load 4 group
  activeJobs : r.2.activeJobs = s.activeJobs
  queues : ∀ v, r.2.queue v = s.queue v

section Exhausted
variable {s : JobSystem} {w i : ℕ} {function : List UInt8} {e : Error}

theorem allocateJob_fst (s : JobSystem) (i : ℕ) (function : List UInt8) :
    (s.allocateJob i function).1 = (s.pool.allocateJob s.memory i function).1 := by
  rw [allocateJob]

theorem makeJob_of_error (h : (s.allocateJob i function).1 = .error e) :
    s.makeJob i function = (nullptr, (s.allocateJob i function).2) := by
  rw [makeJob]
  generalize s.allocateJob i function = r at h ⊢
  obtain ⟨result, s'⟩ := r
  obtain rfl : result = .error e := h
  rfl

theorem allocateJob_counted_of_error (h : (s.allocateJob i function).1 = .error e) (group : ℕ) :
    (({ s with memory := incrementAt s.memory group } : JobSystem).allocateJob i function).1 =
      .error e := by
  rw [allocateJob_fst] at h ⊢
  exact s.pool.allocateJob_result_eq.trans h

theorem groupRun_of_error (h : (s.allocateJob i function).1 = .error e) (group : ℕ) :
    s.groupRun w i group function = (.nullDereference,
      (({ s with memory := incrementAt s.memory group } : JobSystem).allocateJob i function).2) := by
  rw [groupRun, makeJob_of_error (allocateJob_counted_of_error h group)]
  rfl

/-- The null pointer is scheduled before it is waited for. -/
theorem makeJobAndWait_of_error (h : (s.allocateJob i function).1 = .error e) (turns : ℕ) :
    s.makeJobAndWait (turns + 1) w i function =
      some (.nullDereference, (s.allocateJob i function).2.scheduleJob w nullptr) := by
  rw [makeJobAndWait, makeJob_of_error h]
  rfl

theorem scheduled_of_error (hw : w < s.workers.length) :
    ((s.allocateJob i function).2.scheduleJob w nullptr).queue w = (s.queue w).push nullptr ∧
      ((s.allocateJob i function).2.scheduleJob w nullptr).activeJobs =
        AtomicCounter.increment s.activeJobs := by
  rw [allocateJob]
  generalize s.pool.allocateJob s.memory i function = r
  exact ⟨queue_setQueue hw, rfl⟩

/-- The group's counter is one too high for good: the pool itself changes no byte when it has
no job to give. -/
theorem counter_of_error {capacity : ℕ} {bases : List ℕ} {live : ℕ → List ℕ} {group : ℕ}
    (hplace : JobPool.Placement capacity bases)
    (hpool : JobPool.Inv capacity bases s.pool s.memory live) (hi : i < bases.length)
    (hgroup : ∀ b ∈ bases, group + 4 ≤ b ∨ b + Job.size * capacity ≤ group)
    (h : (s.allocateJob i function).1 = .error e) :
    (s.groupRun w i group function).2.memory.load 4 group =
      (AtomicCounter.increment (.ofNat (s.memory.load 4 group))).toNat := by
  have hpool' : JobPool.Inv capacity bases s.pool (incrementAt s.memory group) live :=
    hpool.of_arrays fun b hb => same_store (hgroup b hb).symm
  have hfail := allocateJob_counted_of_error h group
  have hempty := JobPool.allocateJob_of_error hfail []
  have hfits : ([] : List UInt8).length ≤ Job.functionRoom := Nat.zero_le _
  obtain ⟨-, -, -, hmemory⟩ := hpool'.refused hplace hi hfits (hempty.trans (Prod.ext hfail rfl))
  have hrun : (s.groupRun w i group function).2.memory = incrementAt s.memory group := by
    rw [groupRun_of_error h]
    exact hmemory
  rw [hrun, incrementAt, load_store_self _ _ (UInt32.toNat_lt _)]

end Exhausted

/-- Whenever the pool is exhausted both calls dereference the null pointer, so neither leaves
the system intact. -/
theorem not_intact_of_exhausted (s : JobSystem) (w i group : ℕ) (function : List UInt8) (e : Error)
    (h : (s.allocateJob i function).1 = .error e) :
    ¬ Intact s group (s.groupRun w i group function) ∧
      ¬ ∃ turns r, s.makeJobAndWait turns w i function = some r ∧ Intact s group r := by
  constructor
  · intro hintact
    have hreturned := hintact.returned
    rw [groupRun_of_error h] at hreturned
    cases hreturned
  · rintro ⟨turns, r, hcall, hintact⟩
    cases turns with
    | zero => cases hcall
    | succ turns =>
      rw [makeJobAndWait_of_error h, Option.some_inj] at hcall
      rw [← hcall] at hintact
      cases hintact.returned

section Small

/-- A pool with one job, which is live. -/
abbrev exhaustedSystem : JobSystem :=
  let (pool, m) := JobPool.create 16 1 [1024] fun _ => 0
  ((JobSystem.create 1 4 pool m).allocateJob 0 [1]).2

theorem exhaustedSystem_error :
    (exhaustedSystem.allocateJob 0 [2]).1 = .error JobPool.exhausted := by
  decide +kernel

theorem not_intact_of_exhausted_second :
    ¬ Intact exhaustedSystem 512 (exhaustedSystem.groupRun 0 0 512 [2]) ∧
      ¬ ∃ turns r, exhaustedSystem.makeJobAndWait turns 0 0 [2] = some r ∧
        Intact exhaustedSystem 512 r :=
  not_intact_of_exhausted exhaustedSystem 0 0 512 [2] JobPool.exhausted exhaustedSystem_error

/-- `run` has counted a job that there is not, and `make_job_and_wait` has put a null pointer
into the queue. -/
theorem exhaustedSystem_not_intact :
    (exhaustedSystem.allocateJob 0 [2]).1 = .error JobPool.exhausted ∧
      (let r := exhaustedSystem.groupRun 0 0 512 [2]
      r.1 = .nullDereference ∧ exhaustedSystem.memory.load 4 512 = 0 ∧ r.2.memory.load 4 512 = 1 ∧
        ¬ Intact exhaustedSystem 512 r) ∧
      ∃ r, exhaustedSystem.makeJobAndWait 1 0 0 [2] = some r ∧ r.1 = .nullDereference ∧
        exhaustedSystem.activeJobs = 0 ∧ r.2.activeJobs = 1 ∧ (r.2.queue 0).entries = [nullptr] ∧
        ¬ Intact exhaustedSystem 512 r := by
  refine ⟨exhaustedSystem_error, ⟨by decide +kernel, by decide +kernel, by decide +kernel, ?_⟩,
    _, rfl, by decide +kernel, by decide +kernel, by decide +kernel, by decide +kernel, ?_⟩
  · intro h
    exact absurd h.counter (by decide +kernel)
  · intro h
    exact absurd h.activeJobs (by decide +kernel)

end Small

end JobSystem

end Jobrocket
