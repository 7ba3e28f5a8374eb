import Jobrocket.Detail.AtomicCounter
import Jobrocket.Detail.FixedWorkStealingQueue
import Jobrocket.Detail.RNG
import Jobrocket.JobPoolInvariant

/-! # Workers

A worker takes jobs from its own queue and steals from one worker chosen at random. The
calls of the job system are taken one after another, whichever threads they come from;
the function of a job runs inside the call that took it.
-/
namespace Jobrocket
open Library

/-- A worker's members. Its thread, its sleeping and the scheduler's lock are not part of
the calls modelled here. -/
structure Worker where
  queue : FixedWorkStealingQueue ℕ
  rand : Xoroshiro128
  id : UInt32

namespace Worker

def create (id : UInt32) (maxJobs : ℕ) : Worker :=
  { queue := .fresh ℕ maxJobs, rand := ⟨1, 2⟩, id := id }

instance : Inhabited Worker := ⟨create 0 0⟩

end Worker

/-- The workers, the pool they free to, the scheduler's counter and the bytes. -/
structure JobSystem where
  memory : Memory
  pool : JobPool
  workers : List Worker
  activeJobs : UInt32

namespace JobSystem

def worker (s : JobSystem) (w : ℕ) : Worker := s.workers.getD w default

def queue (s : JobSystem) (w : ℕ) : FixedWorkStealingQueue ℕ := (s.worker w).queue

def setQueue (s : JobSystem) (w : ℕ) (q : FixedWorkStealingQueue ℕ) : JobSystem :=
  { s with workers := s.workers.modify w fun x => { x with queue := q } }

def setRand (s : JobSystem) (w : ℕ) (r : Xoroshiro128) : JobSystem :=
  { s with workers := s.workers.modify w fun x => { x with rand := r } }

def create (workers queueCapacity : ℕ) (pool : JobPool) (m : Memory) : JobSystem :=
  { memory := m, pool := pool, activeJobs := 0,
    workers := (List.range workers).map fun w => .create (.ofNat w) queueCapacity }

def readyJob (s : JobSystem) (taken : Option ℕ) : Option ℕ := taken.filter (Job.isReady s.memory)

def getNextJob (s : JobSystem) (w : ℕ) : Option ℕ × JobSystem :=
  let (popped, q) := (s.queue w).pop
  let s := s.setQueue w q
  match s.readyJob popped with
  | some job => (some job, s)
  | none =>
    let (r, rand) := (s.worker w).rand.next
    let s := s.setRand w rand
    let randWorker := r.toNat % s.workers.length
    if randWorker ≠ (s.worker w).id.toNat then
      let (stolen, q) := (s.queue randWorker).steal
      let s := s.setQueue randWorker q
      (s.readyJob stolen, s)
    else (none, s)

def allocateJob (s : JobSystem) (i : ℕ) (function : List UInt8) : Except Error ℕ × JobSystem :=
  let (result, pool, m, _) := s.pool.allocateJob s.memory i function
  (result, { s with memory := m, pool := pool })

def scheduleJob (s : JobSystem) (w job : ℕ) : JobSystem :=
  { s.setQueue w ((s.queue w).push job) with activeJobs := AtomicCounter.increment s.activeJobs }

/-- `job->execute()`: the function itself is not modelled, its run is the event. -/
def execute (m : Memory) (job : ℕ) : Memory :=
  Job.setState (Job.setState m job .running) job .completed

/-- `group_counter->decrement()`, with the counter in memory. -/
def decrementAt (m : Memory) (counter : ℕ) : Memory :=
  m.store 4 counter (AtomicCounter.decrement (.ofNat (m.load 4 counter))).toNat

/-- What follows the choice of a job. The jobs' source pool is this pool. -/
def runJob (s : JobSystem) (job : ℕ) : JobSystem :=
  let m := execute s.memory job
  let m :=
    if Job.groupCounter m job ≠ nullptr then decrementAt m (Job.groupCounter m job) else m
  let pool := if Job.sourcePool m job ≠ nullptr then s.pool.freeJob m job else s.pool
  { s with memory := m, pool := pool, activeJobs := AtomicCounter.decrement s.activeJobs }

def tryRunJob (s : JobSystem) (w : ℕ) : Option ℕ × JobSystem :=
  match s.getNextJob w with
  | (none, s) => (none, s)
  | (some job, s) => (some job, s.runJob job)

section Members
variable {s : JobSystem} {w v : ℕ} {q : FixedWorkStealingQueue ℕ} {r : Xoroshiro128}

@[simp] theorem setQueue_memory : (s.setQueue w q).memory = s.memory := rfl
@[simp] theorem setQueue_pool : (s.setQueue w q).pool = s.pool := rfl
@[simp] theorem setQueue_workers_length :
    (s.setQueue w q).workers.length = s.workers.length := List.length_modify ..
@[simp] theorem setRand_memory : (s.setRand w r).memory = s.memory := rfl
@[simp] theorem setRand_pool : (s.setRand w r).pool = s.pool := rfl
@[simp] theorem setRand_workers_length :
    (s.setRand w r).workers.length = s.workers.length := List.length_modify ..

theorem queue_setQueue (h : w < s.workers.length) : (s.setQueue w q).queue w = q := by
  simp [queue, worker, setQueue, List.getD_eq_getElem?_getD, h]

theorem queue_setQueue_ne (h : v ≠ w) : (s.setQueue w q).queue v = s.queue v := by
  simp [queue, worker, setQueue, List.getD_eq_getElem?_getD, h.symm]

@[simp] theorem queue_setRand : (s.setRand w r).queue v = s.queue v := by
  simp only [queue, worker, setRand, List.getD_eq_getElem?_getD, List.getElem?_modify]
  by_cases h : w = v
  · subst h
    cases s.workers[w]? <;> simp
  · cases s.workers[v]? <;> simp [h]

@[simp] theorem runJob_workers (s : JobSystem) (job : ℕ) : (s.runJob job).workers = s.workers := by
  simp only [runJob]

end Members

end JobSystem

end Jobrocket
