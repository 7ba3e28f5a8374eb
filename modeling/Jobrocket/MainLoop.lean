import Jobrocket.Library.Interleaving
import Jobrocket.WorkerSteps

/-! # The workers' main loop

The threads that `startup` starts run `main_proc`, one access of a shared variable at a
time, beside threads that schedule jobs and threads that call `shutdown`. A condition
variable's `wait` is the loop of its definition: the predicate is evaluated under the
mutex, and a worker that finds it false releases the mutex and blocks in one step. A
notification wakes the workers that are blocked and is not remembered. The functions of
jobs are not modelled; what they schedule is scheduled by the other threads.
-/
namespace Jobrocket.MainLoop
open Library

/-- Where a worker's thread is in `main_proc`. -/
inductive PC where
  | notStarted
  | begin
  | testState
  | testActive
  | testQueue
  | lock
  | evalActive
  | evalState
  | block
  | blocked
  | relock
  | unlock
  | pop
  | steal
  | execute (job : ℕ)
  | complete (job : ℕ)
  | leaveGroup (job : ℕ)
  | release (job : ℕ)
  | leaveActive
  | clamp
  | testLoop
  | finished
  deriving DecidableEq

/-- Where a thread is in `schedule_job` or in `shutdown`. -/
inductive ThreadPC where
  | idle
  | increment (w job : ℕ)
  | push (w job : ℕ)
  | notify
  | terminating (w : ℕ)
  | notifyTerminated
  | joining (w : ℕ)
  deriving DecidableEq

/-- The shared variables; `started` counts the threads started by the loop of `startup`,
and `mutex` is the worker that holds `worker_mut_`. -/
structure Config (τ : Type*) where
  system : JobSystem
  numWorkers : ℕ
  started : ℕ
  states : ℕ → Worker.State
  main : ℕ → PC
  mutex : Option ℕ
  threads : τ → ThreadPC

/-- The loop of `startup` goes on, a worker does, a thread calls `schedule_job` or
`shutdown`, or goes on in it. -/
inductive Label (τ : Type*) where
  | start
  | worker (w : ℕ)
  | schedule (t : τ) (w job : ℕ)
  | shutdown (t : τ)
  | thread (t : τ)

/-- A worker's state is set to terminated; a worker begins to execute a job. -/
inductive Event where
  | terminated (w : ℕ)
  | executing (w job : ℕ)
  deriving DecidableEq

variable {τ : Type*}

def start (τ : Type*) (system : JobSystem) (numWorkers : ℕ) : Config τ where
  system := system
  numWorkers := numWorkers
  started := 0
  states _ := .ready
  main _ := .notStarted
  mutex := none
  threads _ := .idle

namespace Config

def goto (c : Config τ) (w : ℕ) (pc : PC) : Config τ :=
  { c with main := Function.update c.main w pc }

def setState (c : Config τ) (w : ℕ) (s : Worker.State) : Config τ :=
  { c with states := Function.update c.states w s }

/-- `worker_cv_.notify_all()` -/
def notifyAll (c : Config τ) : Config τ :=
  { c with main := fun w => if c.main w = .blocked then .relock else c.main w }

def setThread [DecidableEq τ] (c : Config τ) (t : τ) (pc : ThreadPC) : Config τ :=
  { c with threads := Function.update c.threads t pc }

/-- The predicate of the wait. -/
def Predicate (c : Config τ) (w : ℕ) : Prop :=
  0 < c.system.activeJobs ∨ c.states w = .terminated

end Config

/-- The next step of `main_proc` on worker `w`. -/
def workerStep (c : Config τ) (w : ℕ) : Option (Config τ × List Event) :=
  match c.main w with
  | .begin => some ((c.setState w .running).goto w .testState, [])
  | .testState =>
    some (c.goto w (if c.states w ≠ .terminated then .testActive else .finished), [])
  | .testActive => some (c.goto w (if c.system.activeJobs ≤ 0 then .testQueue else .pop), [])
  | .testQueue => some (c.goto w (if !(c.system.queue w).empty then .lock else .pop), [])
  | .lock =>
    if c.mutex = none then some ({ c.goto w .evalActive with mutex := some w }, []) else none
  | .evalActive => some (c.goto w (if c.system.activeJobs > 0 then .unlock else .evalState), [])
  | .evalState => some (c.goto w (if c.states w = .terminated then .unlock else .block), [])
  | .block => some ({ c.goto w .blocked with mutex := none }, [])
  | .relock =>
    if c.mutex = none then some ({ c.goto w .evalActive with mutex := some w }, []) else none
  | .unlock => some ({ c.goto w .pop with mutex := none }, [])
  | .pop =>
    let (job, s) := c.system.popJob w
    some ({ c.goto w (job.elim .steal .execute) with system := s }, [])
  | .steal =>
    let (job, s) := c.system.stealJob w
    some ({ c.goto w (job.elim .testLoop .execute) with system := s }, [])
  | .execute job =>
    some ({ c.goto w (.complete job) with system := c.system.setJobState job .running },
      [.executing w job])
  | .complete job =>
    some ({ c.goto w (.leaveGroup job) with system := c.system.setJobState job .completed }, [])
  | .leaveGroup job =>
    some ({ c.goto w (.release job) with system := c.system.leaveGroup job }, [])
  | .release job => some ({ c.goto w .leaveActive with system := c.system.releaseJob job }, [])
  | .leaveActive =>
    let val := c.system.activeJobs - 1
    some ({ c.goto w (if AtomicCounter.clamps val then .clamp else .testLoop) with
            system := c.system.setActiveJobs val }, [])
  | .clamp => some ({ c.goto w .testLoop with system := c.system.setActiveJobs 0 }, [])
  | .testLoop => some (c.goto w (if c.system.activeJobs > 0 then .pop else .testState), [])
  | .notStarted => none
  | .blocked => none
  | .finished => none

variable [DecidableEq τ]

/-- The next step of `schedule_job` or `shutdown` on thread `t`. -/
def threadStep (c : Config τ) (t : τ) : Option (Config τ × List Event) :=
  match c.threads t with
  | .idle => none
  | .increment w job =>
    let active := AtomicCounter.increment c.system.activeJobs
    some ({ c.setThread t (.push w job) with system := c.system.setActiveJobs active }, [])
  | .push w job =>
    some ({ c.setThread t .notify with system := c.system.pushJob w job }, [])
  | .notify => some (c.notifyAll.setThread t .idle, [])
  | .terminating w =>
    if w < c.system.workers.length then
      some ((c.setState w .terminated).setThread t (.terminating (w + 1)), [.terminated w])
    else some (c.setThread t .notifyTerminated, [])
  | .notifyTerminated => some (c.notifyAll.setThread t (.joining 0), [])
  | .joining w =>
    -- a thread that never started or that was joined before is not joinable
    if w < c.system.workers.length then
      if c.main w = .notStarted ∨ c.main w = .finished then
        some (c.setThread t (.joining (w + 1)), [])
      else none
    else some (c.setThread t .idle, [])

def step : Stepper (Config τ) (Label τ) Event
  | c, .start =>
    if c.started < c.numWorkers then
      some ({ c.goto c.started .begin with started := c.started + 1 }, [])
    else none
  | c, .worker w => workerStep c w
  | c, .schedule t w job =>
    if c.threads t = .idle then some (c.setThread t (.increment w job), []) else none
  | c, .shutdown t =>
    -- `shutdown` comes after `startup` has returned
    if c.threads t = .idle ∧ c.numWorkers ≤ c.started then
      some (c.setThread t (.terminating 0), [])
    else none
  | c, .thread t => threadStep c t

/-- The worker is on its way from the outer test to a job. -/
def PC.Seeking : PC → Prop
  | .testActive | .testQueue | .lock | .evalActive | .relock | .unlock | .pop | .steal => True
  | .execute _ => True
  | _ => False

/-- What a step of worker `w` does to its place, its state and the counter, as far as the
place, the state and the counter before the step decide it. -/
inductive Edge (w : ℕ) (active : UInt32) (state : Worker.State) :
    PC → PC → Worker.State → UInt32 → List Event → Prop
  | begin : Edge w active state .begin .testState .running active []
  | leave (h : state = .terminated) : Edge w active state .testState .finished state active []
  | stay (h : state ≠ .terminated) : Edge w active state .testState .testActive state active []
  | seek {pc pc' : PC} (h : pc.Seeking) (h' : pc'.Seeking) : Edge w active state pc pc' state active []
  | noJobs (h : active = 0) : Edge w active state .evalActive .evalState state active []
  | wake (h : state = .terminated) : Edge w active state .evalState .unlock state active []
  | sleep (h : state ≠ .terminated) : Edge w active state .evalState .block state active []
  | block : Edge w active state .block .blocked state active []
  | nothing : Edge w active state .steal .testLoop state active []
  | execute (job : ℕ) :
    Edge w active state (.execute job) (.complete job) state active [.executing w job]
  | complete (job : ℕ) : Edge w active state (.complete job) (.leaveGroup job) state active []
  | leaveGroup (job : ℕ) : Edge w active state (.leaveGroup job) (.release job) state active []
  | release (job : ℕ) : Edge w active state (.release job) .leaveActive state active []
  | leaveActive : Edge w active state .leaveActive
      (if AtomicCounter.clamps (active - 1) then .clamp else .testLoop) state (active - 1) []
  | clamp : Edge w active state .clamp .testLoop state 0 []
  | again (h : active > 0) : Edge w active state .testLoop .pop state active []
  | done (h : ¬ active > 0) : Edge w active state .testLoop .testState state active []

/-- What a step of worker `w` leaves alone, and the edge it takes. -/
structure Moved (c : Config τ) (w : ℕ) (c' : Config τ) (es : List Event) : Prop where
  numWorkers : c'.numWorkers = c.numWorkers
  started : c'.started = c.started
  threads : c'.threads = c.threads
  edge : ∃ pc state, c'.main = Function.update c.main w pc ∧
    c'.states = Function.update c.states w state ∧
    Edge w c.system.activeJobs (c.states w) (c.main w) pc state c'.system.activeJobs es

inductive ThreadMove (c : Config τ) (t : τ) : Config τ → List Event → Prop
  | increment {w job : ℕ} (h : c.threads t = .increment w job) (active : UInt32) :
    ThreadMove c t { c.setThread t (.push w job) with system := c.system.setActiveJobs active } []
  | push {w job : ℕ} (h : c.threads t = .push w job) :
    ThreadMove c t { c.setThread t .notify with system := c.system.pushJob w job } []
  | notify (h : c.threads t = .notify) : ThreadMove c t (c.notifyAll.setThread t .idle) []
  | terminate {w : ℕ} (h : c.threads t = .terminating w) (hw : w < c.system.workers.length) :
    ThreadMove c t ((c.setState w .terminated).setThread t (.terminating (w + 1))) [.terminated w]
  | terminated {w : ℕ} (h : c.threads t = .terminating w) :
    ThreadMove c t (c.setThread t .notifyTerminated) []
  | notifyTerminated (h : c.threads t = .notifyTerminated) :
    ThreadMove c t (c.notifyAll.setThread t (.joining 0)) []
  | join {w : ℕ} (h : c.threads t = .joining w) :
    ThreadMove c t (c.setThread t (.joining (w + 1))) []
  | joined {w : ℕ} (h : c.threads t = .joining w) : ThreadMove c t (c.setThread t .idle) []

section Inversion
variable {c c' : Config τ} {w : ℕ} {t : τ} {es : List Event}

omit [DecidableEq τ] in
theorem Moved.of_goto {pc : PC} {s : JobSystem} {mutex : Option ℕ}
    (h : Edge w c.system.activeJobs (c.states w) (c.main w) pc (c.states w) s.activeJobs es) :
    Moved c w { c.goto w pc with system := s, mutex := mutex } es :=
  ⟨rfl, rfl, rfl, pc, c.states w, rfl, (Function.update_eq_self w c.states).symm, h⟩

omit [DecidableEq τ] in
theorem moved_of_workerStep (h : workerStep c w = some (c', es)) : Moved c w c' es := by
  unfold workerStep at h
  cases hpc : c.main w with
  | begin =>
    simp only [hpc] at h
    cases h
    exact ⟨rfl, rfl, rfl, .testState, .running, rfl, rfl, hpc ▸ .begin⟩
  | testState =>
    simp only [hpc] at h
    split at h
    · next hne =>
      cases h
      exact .of_goto (hpc ▸ .stay hne)
    · next heq =>
      cases h
      exact .of_goto (hpc ▸ .leave (not_not.mp heq))
  | testActive =>
    simp only [hpc] at h
    split at h <;> cases h <;> exact .of_goto (hpc ▸ .seek trivial trivial)
  | testQueue =>
    simp only [hpc] at h
    split at h <;> cases h <;> exact .of_goto (hpc ▸ .seek trivial trivial)
  | lock =>
    simp only [hpc] at h
    split at h
    · cases h
      exact .of_goto (hpc ▸ .seek trivial trivial)
    · cases h
  | evalActive =>
    simp only [hpc] at h
    split at h
    · cases h
      exact .of_goto (hpc ▸ .seek trivial trivial)
    · next hno =>
      cases h
      exact .of_goto (hpc ▸ .noJobs (UInt32.le_zero_iff.mp (UInt32.not_lt.mp hno)))
  | evalState =>
    simp only [hpc] at h
    split at h
    · next heq =>
      cases h
      exact .of_goto (hpc ▸ .wake heq)
    · next hne =>
      cases h
      exact .of_goto (hpc ▸ .sleep hne)
  | block =>
    simp only [hpc] at h
    cases h
    exact .of_goto (hpc ▸ .block)
  | relock =>
    simp only [hpc] at h
    split at h
    · cases h
      exact .of_goto (hpc ▸ .seek trivial trivial)
    · cases h
  | unlock =>
    simp only [hpc] at h
    cases h
    exact .of_goto (hpc ▸ .seek trivial trivial)
  | pop =>
    simp only [hpc] at h
    cases h
    cases (c.system.popJob w).1 <;> exact .of_goto (hpc ▸ .seek trivial trivial)
  | steal =>
    simp only [hpc] at h
    cases h
    apply Moved.of_goto
    rw [hpc, JobSystem.stealJob_activeJobs]
    cases (c.system.stealJob w).1 with
    | none => exact .nothing
    | some job => exact .seek trivial trivial
  | execute job =>
    simp only [hpc] at h
    cases h
    exact .of_goto (hpc ▸ .execute job)
  | complete job =>
    simp only [hpc] at h
    cases h
    exact .of_goto (hpc ▸ .complete job)
  | leaveGroup job =>
    simp only [hpc, Option.some.injEq, Prod.mk.injEq] at h
    obtain ⟨rfl, rfl⟩ := h
    apply Moved.of_goto
    rw [hpc, JobSystem.leaveGroup_activeJobs c.system job]
    exact .leaveGroup job
  | release job =>
    simp only [hpc, Option.some.injEq, Prod.mk.injEq] at h
    obtain ⟨rfl, rfl⟩ := h
    apply Moved.of_goto
    rw [hpc, JobSystem.releaseJob_activeJobs c.system job]
    exact .release job
  | leaveActive =>
    simp only [hpc] at h
    cases h
    exact .of_goto (hpc ▸ .leaveActive)
  | clamp =>
    simp only [hpc] at h
    cases h
    exact .of_goto (hpc ▸ .clamp)
  | testLoop =>
    simp only [hpc] at h
    split at h
    · next hmore =>
      cases h
      exact .of_goto (hpc ▸ .again hmore)
    · next hno =>
      cases h
      exact .of_goto (hpc ▸ .done hno)
  | notStarted => simp [hpc] at h
  | blocked => simp [hpc] at h
  | finished => simp [hpc] at h

theorem threadMove_of_threadStep (h : threadStep c t = some (c', es)) : ThreadMove c t c' es := by
  unfold threadStep at h
  cases hpc : c.threads t with
  | idle => simp [hpc] at h
  | increment w job =>
    simp only [hpc] at h
    cases h
    exact .increment hpc _
  | push w job =>
    simp only [hpc] at h
    cases h
    exact .push hpc
  | notify =>
    simp only [hpc] at h
    cases h
    exact .notify hpc
  | terminating w =>
    simp only [hpc] at h
    split at h
    · next hw =>
      cases h
      exact .terminate hpc hw
    · cases h
      exact .terminated hpc
  | notifyTerminated =>
    simp only [hpc] at h
    cases h
    exact .notifyTerminated hpc
  | joining w =>
    simp only [hpc] at h
    split at h
    · split at h
      · cases h
        exact .join hpc
      · cases h
    · cases h
      exact .joined hpc

end Inversion

/-- One worker with a thread and one without, and jobs at the addresses 1024 and 1096. -/
def small : JobSystem :=
  let (pool, m) := JobPool.create 16 2 [1024] fun _ => 0
  (((JobSystem.create 2 4 pool m).allocateJob 0 [1]).2.allocateJob 0 [1]).2

end Jobrocket.MainLoop
