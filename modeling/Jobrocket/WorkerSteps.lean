import Jobrocket.Worker

/-! # The steps of a worker's calls

`get_next_job`, `schedule_job` and what follows the choice of a job, cut into the steps
between which other threads can move. Run without interruption the steps are the calls.
-/
namespace Jobrocket
open Library

/-- `Worker::State` -/
inductive Worker.State where
  | ready
  | running
  | waiting
  | terminated
  deriving DecidableEq

namespace JobSystem

/-- The pop of `get_next_job`, and the job if it is ready. -/
def popJob (s : JobSystem) (w : ℕ) : Option ℕ × JobSystem :=
  let (popped, q) := (s.queue w).pop
  let s := s.setQueue w q
  (s.readyJob popped, s)

/-- The rest of `get_next_job`: a steal from a worker chosen at random. -/
def stealJob (s : JobSystem) (w : ℕ) : Option ℕ × JobSystem :=
  let (r, rand) := (s.worker w).rand.next
  let s := s.setRand w rand
  let randWorker := r.toNat % s.workers.length
  if randWorker ≠ (s.worker w).id.toNat then
    let (stolen, q) := (s.queue randWorker).steal
    let s := s.setQueue randWorker q
    (s.readyJob stolen, s)
  else (none, s)

def setActiveJobs (s : JobSystem) (n : UInt32) : JobSystem := { s with activeJobs := n }

def pushJob (s : JobSystem) (w job : ℕ) : JobSystem := s.setQueue w ((s.queue w).push job)

def setJobState (s : JobSystem) (job : ℕ) (state : Job.State) : JobSystem :=
  { s with memory := Job.setState s.memory job state }

/-- The job's group, if it has one, counts one job less. -/
def leaveGroup (s : JobSystem) (job : ℕ) : JobSystem :=
  let counter := Job.groupCounter s.memory job
  { s with memory := if counter ≠ nullptr then decrementAt s.memory counter else s.memory }

def releaseJob (s : JobSystem) (job : ℕ) : JobSystem :=
  let source := Job.sourcePool s.memory job
  { s with pool := if source ≠ nullptr then s.pool.freeJob s.memory job else s.pool }

theorem getNextJob_eq (s : JobSystem) (w : ℕ) :
    s.getNextJob w = match (s.popJob w).1 with
      | some job => (some job, (s.popJob w).2)
      | none => (s.popJob w).2.stealJob w := by
  simp only [getNextJob, popJob, stealJob]
  cases (s.setQueue w (s.queue w).pop.2).readyJob (s.queue w).pop.1 <;> rfl

theorem scheduleJob_eq (s : JobSystem) (w job : ℕ) :
    s.scheduleJob w job =
      (s.setActiveJobs (AtomicCounter.increment s.activeJobs)).pushJob w job := rfl

theorem runJob_eq (s : JobSystem) (job : ℕ) :
    let done := ((s.setJobState job .running).setJobState job .completed).leaveGroup job
    s.runJob job = (done.releaseJob job).setActiveJobs (AtomicCounter.decrement s.activeJobs) := by
  dsimp +instances only [runJob, execute, setJobState, leaveGroup, releaseJob, setActiveJobs]

section Members
variable {s : JobSystem} {w job : ℕ} {n : UInt32} {state : Job.State}

@[simp] theorem popJob_activeJobs : (s.popJob w).2.activeJobs = s.activeJobs := rfl

@[simp] theorem stealJob_activeJobs : (s.stealJob w).2.activeJobs = s.activeJobs := by
  simp only [stealJob]
  split <;> rfl

@[simp] theorem setActiveJobs_activeJobs : (s.setActiveJobs n).activeJobs = n := rfl
@[simp] theorem pushJob_activeJobs : (s.pushJob w job).activeJobs = s.activeJobs := rfl
@[simp] theorem setJobState_activeJobs : (s.setJobState job state).activeJobs = s.activeJobs := rfl

@[simp] theorem leaveGroup_activeJobs (s : JobSystem) (job : ℕ) :
    (s.leaveGroup job).activeJobs = s.activeJobs := by
  simp only [leaveGroup]

@[simp] theorem releaseJob_activeJobs (s : JobSystem) (job : ℕ) :
    (s.releaseJob job).activeJobs = s.activeJobs := by
  simp only [releaseJob]

end Members

end JobSystem

end Jobrocket
