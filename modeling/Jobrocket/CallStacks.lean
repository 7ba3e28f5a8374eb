import Jobrocket.JobPoolInvariant
import Jobrocket.Library.Interleaving
import Jobrocket.WorkerSteps

/-! # Threads inside calls

Every thread has a stack of calls, and the innermost takes the next step: one access of a
shared variable, one call of the pool, or one of a deque. The function of a job can make
any call, and the calls that wait run other jobs meanwhile, so the stacks grow without a
bound. The deques are taken together and at their interface, as what was pushed and not
taken; which entry a pop or a steal finds is up to the schedule, and the test whether it is
ready belongs to the same step. A pointer to a job is named by a number, one for every job
that was made, and `block` says which address it is. The callables are of any size, and what
does not fit into a block is written behind it. A group's `run` that gets no block ends the
run, since the source then writes through a null pointer.
-/
namespace Jobrocket.CallStacks
open Library Memory

/-- The address of the counter of a group. -/
structure Group where
  address : ℕ
  ne_null : address ≠ nullptr
  lt : address < 2 ^ 64
  deriving DecidableEq

/-- Where a thread is in `try_run_job`. -/
inductive RunPC where
  | pop
  | steal
  | execute (n : ℕ)
  | body (n : ℕ)
  | leaveGroup (n : ℕ)
  | decrementGroup (g n : ℕ)
  | clampGroup (g n : ℕ)
  | release (n : ℕ)
  | leaveActive (n : ℕ)
  | clampActive
  deriving DecidableEq

/-- A call in progress and where it is. A `try_run_job` remembers how many of the entries
it took were not ready. -/
inductive Frame where
  | groupIncrement (g : Group) (function : List UInt8)
  | groupMake (g : Group) (n : ℕ) (function : List UInt8)
  | groupSet (g : Group) (n : ℕ)
  | waitForAll (g : Group)
  | make (function : List UInt8)
  | schedule (n : ℕ)
  | push (n : ℕ)
  | wait (n : ℕ)
  | tryRun (dropped : ℕ) (pc : RunPC)
  deriving DecidableEq

/-- What the program can call: `JobGroup::run`, `wait_for_all`, `make_job`, `run`, `wait`, and,
on a worker's thread, `try_run_job`. -/
inductive Call where
  | groupRun (g : Group) (function : List UInt8)
  | waitForAll (g : Group)
  | make (function : List UInt8)
  | run (n : ℕ)
  | wait (n : ℕ)
  | tryRun

/-- A thread makes a call, its innermost call takes a step, or the pop or the steal it is at
gives an entry or nothing. -/
inductive Label (τ : Type*) where
  | call (t : τ) (call : Call)
  | go (t : τ)
  | take (t : τ) (entry : Option ℕ)

/-- A group counts a job or counts it no more; `make_job` gives a pointer and `run` is given
one; `active_jobs_` counts a job or counts it no more; a job's function is done; and the
returns of `try_run_job`, `wait` and `wait_for_all`. -/
inductive Event where
  | counted (n g : ℕ)
  | uncounted (n g : ℕ)
  | made (n : ℕ)
  | ran (n : ℕ)
  | scheduled (n : ℕ)
  | left (n : ℕ)
  | executed (n : ℕ)
  | returned (dropped : ℕ)
  | waited (n : ℕ)
  | waitedForAll (g : ℕ)
  deriving DecidableEq

/-- The shared variables, the number of the next job, the addresses of the jobs, and every
thread's frames, innermost first. -/
structure Config (τ : Type*) where
  memory : Memory
  pool : JobPool
  counters : ℕ → UInt32
  entries : List ℕ
  activeJobs : UInt32
  next : ℕ
  block : ℕ → ℕ
  frames : τ → List Frame

variable {τ : Type*}

def start (τ : Type*) (pool : JobPool) (m : Memory) : Config τ where
  memory := m
  pool := pool
  counters _ := 0
  entries := []
  activeJobs := 0
  next := 0
  block _ := nullptr
  frames _ := []

/-- The first frame of a call, and the event of the call. -/
def Call.enter : Call → Frame × List Event
  | .groupRun g function => (.groupIncrement g function, [])
  | .waitForAll g => (.waitForAll g, [])
  | .make function => (.make function, [])
  | .run n => (.schedule n, [.ran n])
  | .wait n => (.wait n, [])
  | .tryRun => (.tryRun 0 .pop, [])

/-- The code of the program or of a job's function is what runs. -/
def atProgram : List Frame → Bool
  | [] => true
  | .tryRun _ (.body _) :: _ => true
  | _ => false

/-- Where the test of the job's group counter leads. -/
def Config.groupExit (c : Config τ) (n : ℕ) : RunPC :=
  let g := Job.groupCounter c.memory (c.block n)
  if g ≠ nullptr then .decrementGroup g n else .release n

def Config.releaseJob (c : Config τ) (n : ℕ) : Config τ :=
  let source := Job.sourcePool c.memory (c.block n)
  { c with
    pool := if source ≠ nullptr then c.pool.freeJob c.memory (c.block n) else c.pool }

/-- A step of `try_run_job` behind the choice of a job, and where it leads, if not to the
return of the call. -/
def runStep (c : Config τ) : RunPC → Option (Config τ × Option RunPC × List Event)
  | .execute n =>
    some ({ c with memory := Job.setState c.memory (c.block n) .running }, some (.body n), [])
  | .body n =>
    some ({ c with memory := Job.setState c.memory (c.block n) .completed }, some (.leaveGroup n),
      [.executed n])
  | .leaveGroup n => some (c, some (c.groupExit n), [])
  | .decrementGroup g n =>
    let val := c.counters g - 1
    some ({ c with counters := Function.update c.counters g val },
      some (if AtomicCounter.clamps val then .clampGroup g n else .release n), [.uncounted n g])
  | .clampGroup g n =>
    some ({ c with counters := Function.update c.counters g 0 }, some (.release n), [])
  | .release n => some (c.releaseJob n, some (.leaveActive n), [])
  | .leaveActive n =>
    let val := c.activeJobs - 1
    some ({ c with activeJobs := val }, if AtomicCounter.clamps val then some .clampActive else none,
      [.left n])
  | .clampActive => some ({ c with activeJobs := 0 }, none, [])
  | .pop => none
  | .steal => none

/-- A step of the innermost call of a thread, whose index in the pool is `i`, and the frames
that take the place of its frame. -/
def advance (i : ℕ) (c : Config τ) : Frame → Option (Config τ × List Frame × List Event)
  | .groupIncrement g function =>
    let active := AtomicCounter.increment (c.counters g.address)
    some ({ c with counters := Function.update c.counters g.address active, next := c.next + 1 },
      [.groupMake g c.next function], [.counted c.next g.address])
  | .groupMake g n function =>
    match c.pool.allocateJob c.memory i function with
    | (.ok p, pool, m, _) =>
      some ({ c with memory := m, pool := pool, block := Function.update c.block n p },
        [.groupSet g n], [])
    -- the source writes the group counter through the null pointer
    | (.error _, _) => none
  | .groupSet g n =>
    some ({ c with memory := Job.setGroupCounter c.memory (c.block n) g.address }, [.schedule n], [])
  | .waitForAll g =>
    if c.counters g.address > 0 then some (c, [.tryRun 0 .pop, .waitForAll g], [])
    else some (c, [], [.waitedForAll g.address])
  | .make function =>
    let (result, pool, m, _) := c.pool.allocateJob c.memory i function
    let p := match result with
      | .ok p => p
      | .error _ => nullptr
    some ({ c with memory := m, pool := pool, next := c.next + 1,
                   block := Function.update c.block c.next p }, [], [.made c.next])
  | .schedule n =>
    some ({ c with activeJobs := AtomicCounter.increment c.activeJobs }, [.push n], [.scheduled n])
  | .push n => some ({ c with entries := n :: c.entries }, [], [])
  | .wait n =>
    if Job.state c.memory (c.block n) ≠ Job.State.completed.code then
      some (c, [.tryRun 0 .pop, .wait n], [])
    else some (c, [], [.waited n])
  | .tryRun dropped pc =>
    (runStep c pc).map fun (c, pc, es) => match pc with
      | some pc => (c, [.tryRun dropped pc], es)
      | none => (c, [], es ++ [.returned dropped])

/-- The pop or the steal of a `try_run_job` with the entry that it gives, and in the same
step the test of that job's state. -/
def choose (c : Config τ) (dropped : ℕ) (stealing : Bool) :
    Option ℕ → Config τ × List Frame × List Event
  | some n =>
    let taken := { c with entries := c.entries.erase n }
    if Job.isReady c.memory (c.block n) then (taken, [.tryRun dropped (.execute n)], [])
    else if stealing then (taken, [], [.returned (dropped + 1)])
    else (taken, [.tryRun (dropped + 1) .steal], [])
  | none => if stealing then (c, [], [.returned dropped]) else (c, [.tryRun dropped .steal], [])

variable [DecidableEq τ]

/-- The frames `fs` take the place of the innermost call of the thread. -/
def Config.setTop (c : Config τ) (t : τ) (fs : List Frame) : Config τ :=
  { c with frames := Function.update c.frames t (fs ++ (c.frames t).tail) }

def step (index : τ → ℕ) : Stepper (Config τ) (Label τ) Event
  | c, .call t call =>
    if atProgram (c.frames t) then
      let (f, es) := call.enter
      some ({ c with frames := Function.update c.frames t (f :: c.frames t) }, es)
    else none
  | c, .go t =>
    match c.frames t with
    | [] => none
    | f :: _ => (advance (index t) c f).map fun (c', fs, es) => (c'.setTop t fs, es)
  | c, .take t entry =>
    match c.frames t with
    | .tryRun dropped .pop :: _ =>
      let (c', fs, es) := choose c dropped false entry
      some (c'.setTop t fs, es)
    | .tryRun dropped .steal :: _ =>
      let (c', fs, es) := choose c dropped true entry
      some (c'.setTop t fs, es)
    | _ => none

/-- What the innermost call of a thread can do in a step, one rule for each outcome. -/
inductive Move (i : ℕ) (c : Config τ) : Frame → Config τ → List Frame → List Event → Prop
  | groupIncrement (g : Group) (function : List UInt8) :
    Move i c (.groupIncrement g function)
      { c with counters := Function.update c.counters g.address
                 (AtomicCounter.increment (c.counters g.address)), next := c.next + 1 }
      [.groupMake g c.next function] [.counted c.next g.address]
  | groupMake (g : Group) (n : ℕ) (function : List UInt8) {p : ℕ} {pool : JobPool} {m : Memory}
    {calls : List (ℕ × Option Error)}
    (h : c.pool.allocateJob c.memory i function = (.ok p, pool, m, calls)) :
    Move i c (.groupMake g n function)
      { c with memory := m, pool := pool, block := Function.update c.block n p } [.groupSet g n] []
  | groupSet (g : Group) (n : ℕ) :
    Move i c (.groupSet g n)
      { c with memory := Job.setGroupCounter c.memory (c.block n) g.address } [.schedule n] []
  | waitForAll (g : Group) : Move i c (.waitForAll g) c [.tryRun 0 .pop, .waitForAll g] []
  | waitedForAll (g : Group) (h : c.counters g.address = 0) :
    Move i c (.waitForAll g) c [] [.waitedForAll g.address]
  | made (function : List UInt8) {p : ℕ} {pool : JobPool} {m : Memory}
    {calls : List (ℕ × Option Error)}
    (h : c.pool.allocateJob c.memory i function = (.ok p, pool, m, calls)) :
    Move i c (.make function)
      { c with memory := m, pool := pool, next := c.next + 1,
               block := Function.update c.block c.next p } [] [.made c.next]
  | refused (function : List UInt8) {e : Error} {pool : JobPool} {m : Memory}
    {calls : List (ℕ × Option Error)}
    (h : c.pool.allocateJob c.memory i function = (.error e, pool, m, calls)) :
    Move i c (.make function)
      { c with memory := m, pool := pool, next := c.next + 1,
               block := Function.update c.block c.next nullptr } [] [.made c.next]
  | schedule (n : ℕ) :
    Move i c (.schedule n) { c with activeJobs := AtomicCounter.increment c.activeJobs } [.push n]
      [.scheduled n]
  | push (n : ℕ) : Move i c (.push n) { c with entries := n :: c.entries } [] []
  | wait (n : ℕ) : Move i c (.wait n) c [.tryRun 0 .pop, .wait n] []
  | waited (n : ℕ) (h : Job.state c.memory (c.block n) = Job.State.completed.code) :
    Move i c (.wait n) c [] [.waited n]
  | execute (d n : ℕ) :
    Move i c (.tryRun d (.execute n))
      { c with memory := Job.setState c.memory (c.block n) .running } [.tryRun d (.body n)] []
  | body (d n : ℕ) :
    Move i c (.tryRun d (.body n))
      { c with memory := Job.setState c.memory (c.block n) .completed } [.tryRun d (.leaveGroup n)]
      [.executed n]
  | leaveGroup (d n : ℕ) :
    Move i c (.tryRun d (.leaveGroup n)) c [.tryRun d (c.groupExit n)] []
  | decrementGroup (d g n : ℕ) :
    Move i c (.tryRun d (.decrementGroup g n))
      { c with counters := Function.update c.counters g (c.counters g - 1) }
      [.tryRun d (if AtomicCounter.clamps (c.counters g - 1) then .clampGroup g n else .release n)]
      [.uncounted n g]
  | clampGroup (d g n : ℕ) :
    Move i c (.tryRun d (.clampGroup g n))
      { c with counters := Function.update c.counters g 0 } [.tryRun d (.release n)] []
  | release (d n : ℕ) :
    Move i c (.tryRun d (.release n)) (c.releaseJob n) [.tryRun d (.leaveActive n)] []
  | leaveActive (d n : ℕ) (h : c.activeJobs ≠ 0) :
    Move i c (.tryRun d (.leaveActive n)) { c with activeJobs := c.activeJobs - 1 } []
      [.left n, .returned d]
  | wrapActive (d n : ℕ) (h : c.activeJobs = 0) :
    Move i c (.tryRun d (.leaveActive n)) { c with activeJobs := c.activeJobs - 1 }
      [.tryRun d .clampActive] [.left n]
  | clampActive (d : ℕ) :
    Move i c (.tryRun d .clampActive) { c with activeJobs := 0 } [] [.returned d]

/-- What a pop or a steal can do, given the entry it finds. -/
inductive Choice (c : Config τ) : Option ℕ → Frame → Config τ → List Frame → List Event → Prop
  | ready (d n : ℕ) (pc : RunPC) (hpc : pc = .pop ∨ pc = .steal)
    (h : Job.isReady c.memory (c.block n) = true) :
    Choice c (some n) (.tryRun d pc) { c with entries := c.entries.erase n }
      [.tryRun d (.execute n)] []
  | popDrop (d n : ℕ) (h : Job.isReady c.memory (c.block n) = false) :
    Choice c (some n) (.tryRun d .pop) { c with entries := c.entries.erase n }
      [.tryRun (d + 1) .steal] []
  | stealDrop (d n : ℕ) (h : Job.isReady c.memory (c.block n) = false) :
    Choice c (some n) (.tryRun d .steal) { c with entries := c.entries.erase n } []
      [.returned (d + 1)]
  | popNothing (d : ℕ) : Choice c none (.tryRun d .pop) c [.tryRun d .steal] []
  | stealNothing (d : ℕ) : Choice c none (.tryRun d .steal) c [] [.returned d]

/-- What a step can do: a call, a move of an innermost call, or a choice. -/
inductive Stepped (index : τ → ℕ) (c : Config τ) : Label τ → Config τ → List Event → Prop
  | call (t : τ) (call : Call) (h : atProgram (c.frames t) = true) :
    Stepped index c (.call t call)
      { c with frames := Function.update c.frames t (call.enter.1 :: c.frames t) } call.enter.2
  | move (t : τ) {f : Frame} {rest fs : List Frame} {c₁ : Config τ} {es : List Event}
    (h : c.frames t = f :: rest) (hmove : Move (index t) c f c₁ fs es) :
    Stepped index c (.go t) { c₁ with frames := Function.update c.frames t (fs ++ rest) } es
  | choose (t : τ) (entry : Option ℕ) {f : Frame} {rest fs : List Frame} {c₁ : Config τ}
    {es : List Event} (h : c.frames t = f :: rest) (hchoice : Choice c entry f c₁ fs es) :
    Stepped index c (.take t entry) { c₁ with frames := Function.update c.frames t (fs ++ rest) } es

section Inversion
variable {index : τ → ℕ} {c c' c₁ : Config τ} {i d n : ℕ} {l : Label τ} {f : Frame}
variable {fs : List Frame} {es : List Event}

omit [DecidableEq τ] in
theorem move_of_run {pc : RunPC} (h : advance i c (.tryRun d pc) = some (c₁, fs, es)) :
    Move i c (.tryRun d pc) c₁ fs es := by
  cases pc with
  | pop => cases h
  | steal => cases h
  | execute n =>
    cases h
    exact .execute d n
  | body n =>
    cases h
    exact .body d n
  | leaveGroup n =>
    cases h
    exact .leaveGroup d n
  | decrementGroup g n =>
    cases h
    exact .decrementGroup d g n
  | clampGroup g n =>
    cases h
    exact .clampGroup d g n
  | release n =>
    cases h
    exact .release d n
  | leaveActive n =>
    by_cases hzero : c.activeJobs = 0
    · have hclamps := AtomicCounter.clamps_iff.mpr hzero
      simp only [advance, runStep, hclamps, if_true] at h
      cases h
      exact .wrapActive d n hzero
    · have hclamps := mt AtomicCounter.clamps_iff.mp hzero
      simp only [advance, runStep, if_neg hclamps] at h
      cases h
      exact .leaveActive d n hzero
  | clampActive =>
    cases h
    exact .clampActive d

omit [DecidableEq τ] in
theorem move_of_advance (h : advance i c f = some (c₁, fs, es)) : Move i c f c₁ fs es := by
  cases f with
  | groupIncrement g function =>
    cases h
    exact .groupIncrement g function
  | groupMake g n function =>
    simp only [advance] at h
    split at h
    · next halloc =>
      cases h
      exact .groupMake g n function halloc
    · cases h
  | groupSet g n =>
    cases h
    exact .groupSet g n
  | waitForAll g =>
    simp only [advance] at h
    split at h
    · cases h
      exact .waitForAll g
    · next hzero =>
      cases h
      exact .waitedForAll g (UInt32.le_zero_iff.mp (UInt32.not_lt.mp hzero))
  | make function =>
    cases halloc : c.pool.allocateJob c.memory i function with
    | mk result rest =>
      obtain ⟨pool, m, calls⟩ := rest
      simp only [advance, halloc] at h
      cases result with
      | ok p =>
        cases h
        exact .made function halloc
      | error e =>
        cases h
        exact .refused function halloc
  | schedule n =>
    cases h
    exact .schedule n
  | push n =>
    cases h
    exact .push n
  | wait n =>
    simp only [advance] at h
    split at h
    · cases h
      exact .wait n
    · next hdone =>
      cases h
      exact .waited n (not_not.mp hdone)
  | tryRun dropped pc => exact move_of_run h

omit [DecidableEq τ] in
theorem choice_of_choose (c : Config τ) (d : ℕ) (stealing : Bool) (entry : Option ℕ) :
    Choice c entry (.tryRun d (if stealing then .steal else .pop)) (choose c d stealing entry).1
      (choose c d stealing entry).2.1 (choose c d stealing entry).2.2 := by
  cases entry with
  | none =>
    cases stealing with
    | false => exact .popNothing d
    | true => exact .stealNothing d
  | some n =>
    by_cases hready : Job.isReady c.memory (c.block n) = true
    · simp only [choose, if_pos hready]
      exact .ready d n _ (by cases stealing <;> simp) hready
    · simp only [choose, if_neg hready]
      have hfalse := Bool.eq_false_of_not_eq_true hready
      cases stealing with
      | false => exact .popDrop d n hfalse
      | true => exact .stealDrop d n hfalse

omit [DecidableEq τ] in
theorem releaseJob_eq (c : Config τ) (n : ℕ) :
    ∃ pool, c.releaseJob n = { c with pool := pool } := ⟨_, rfl⟩

omit [DecidableEq τ] in
theorem Move.frames (h : Move i c f c₁ fs es) : c₁.frames = c.frames := by
  cases h with
  | release d n =>
    obtain ⟨pool, heq⟩ := releaseJob_eq c n
    rw [heq]
  | _ => rfl

omit [DecidableEq τ] in
theorem Choice.frames {entry : Option ℕ} (h : Choice c entry f c₁ fs es) :
    c₁.frames = c.frames := by
  cases h <;> rfl

theorem stepped_of_step (h : step index c l = some (c', es)) : Stepped index c l c' es := by
  cases l with
  | call t call =>
    simp only [step] at h
    split at h
    · next hat =>
      cases h
      exact .call t call hat
    · cases h
  | go t =>
    cases htop : c.frames t with
    | nil => simp [step, htop] at h
    | cons f rest =>
      simp only [step, htop] at h
      obtain ⟨⟨c₁, fs, gs⟩, hadvance, heq⟩ := Option.map_eq_some_iff.mp h
      have hmove := move_of_advance hadvance
      simp only [Config.setTop, hmove.frames, htop, List.tail_cons] at heq
      cases heq
      exact .move t htop hmove
  | take t entry =>
    cases htop : c.frames t with
    | nil => simp [step, htop] at h
    | cons f rest =>
      cases f with
      | tryRun d pc =>
        cases pc with
        | pop =>
          have hchoice := choice_of_choose c d false entry
          simp only [step, htop, Config.setTop, hchoice.frames, List.tail_cons] at h
          cases h
          exact .choose t entry htop hchoice
        | steal =>
          have hchoice := choice_of_choose c d true entry
          simp only [step, htop, Config.setTop, hchoice.frames, List.tail_cons] at h
          cases h
          exact .choose t entry htop hchoice
        | _ => simp [step, htop] at h
      | _ => simp [step, htop] at h

end Inversion

section Small

/-- A pool of one block for one thread, whose address is 1024. -/
def single : Config Unit :=
  let (pool, m) := JobPool.create 16 1 [1024] fun _ => 0
  start Unit pool m

abbrev callable : List UInt8 := [1]

/-- The thread passes the job to `run`. -/
abbrev running (n : ℕ) : List (Label Unit) := [.call () (.run n), .go (), .go ()]

/-- The thread takes the job and runs it. -/
abbrev taking (n : ℕ) : List (Label Unit) :=
  [.call () .tryRun, .take () (some n), .go (), .go (), .go (), .go (), .go ()]

end Small

end Jobrocket.CallStacks
