import Jobrocket.Detail.QueueRefinement
import Jobrocket.ExecutionDiscipline
import Jobrocket.Exhaustion
import Jobrocket.JobPoolContainment

/-! # Batches of jobs

A thread schedules jobs to its worker and waits for them, and no other thread takes part.
The worker pops the newest entry, so the jobs are executed in the reverse of their order,
and what was in the queue before them stays there.
-/
namespace Jobrocket.JobSystem
open Library Memory FixedWorkStealingQueue

/-- The bytes that the job's function is made of. -/
def buffer (m : Memory) (job : ℕ) : List UInt8 := m.loadBytes (job + 28) Job.functionSize

/-- `JobGroup::run`, once for every function. -/
def groupRuns (w i group : ℕ) : JobSystem → List (List UInt8) → Outcome × JobSystem
  | s, [] => (.returned, s)
  | s, function :: functions =>
    match s.groupRun w i group function with
    | (.returned, s) => groupRuns w i group s functions
    | (.nullDereference, s) => (.nullDereference, s)

/-- The loop of `wait_for_all`, if it ends within a number of turns, with the jobs that it
executed and their buffers. -/
def waitForAll : ℕ → JobSystem → ℕ → ℕ → Option (List (ℕ × List UInt8) × JobSystem)
  | 0, _, _, _ => none
  | turns + 1, s, w, group =>
    if s.memory.load 4 group > 0 then
      let (job, s') := s.tryRunJob w
      let done := job.toList.map fun p => (p, buffer s.memory p)
      (waitForAll turns s' w group).map fun r => (done ++ r.1, r.2)
    else some ([], s)

/-- `make_job` and `run`, once for every function. -/
def runJobs (w i : ℕ) : JobSystem → List (List UInt8) → List ℕ × JobSystem
  | s, [] => ([], s)
  | s, function :: functions =>
    let (job, s) := s.makeJob i function
    let (jobs, s) := runJobs w i (s.scheduleJob w job) functions
    (job :: jobs, s)

/-- Where a batch begins: the layout of the pool, the thread's index and its worker, the jobs
that are live and the entries of the worker's queue. -/
structure Site where
  capacity : ℕ
  bases : List ℕ
  queueCapacity : ℕ
  system : JobSystem
  w : ℕ
  i : ℕ
  live : ℕ → List ℕ
  entries : List ℕ
  placement : JobPool.Placement capacity bases
  thread : i < bases.length

/-- The bytes of a counter lie outside the pool. -/
def Site.Outside (t : Site) (g : ℕ) : Prop :=
  ∀ b ∈ t.bases, g + 4 ≤ b ∨ b + Job.size * t.capacity ≤ g

/-- The jobs of the batch that are not executed yet, the oldest first, each with its function:
they are the newest entries of the queue, they are ready, and they count down `g`, if that is
not null. -/
structure Batch (t : Site) (g : ℕ) (s : JobSystem) (js : List (ℕ × List UInt8)) : Prop where
  pool : JobPool.Inv t.capacity t.bases s.pool s.memory
    (Function.update t.live t.i ((js.map Prod.fst).reverse ++ t.live t.i))
  self_ne : s.pool.self ≠ nullptr
  worker : t.w < s.workers.length
  queue : Represents t.queueCapacity (s.queue t.w) (t.entries ++ js.map Prod.fst)
  queues : ∀ v, v ≠ t.w → s.queue v = t.system.queue v
  active : s.activeJobs.toNat = t.system.activeJobs.toNat + js.length
  count : g ≠ nullptr → s.memory.load 4 g = js.length
  ready : ∀ j ∈ js, Job.state s.memory j.1 = Job.State.ready.code
  source : ∀ j ∈ js, Job.sourcePool s.memory j.1 = s.pool.self
  group : ∀ j ∈ js, Job.groupCounter s.memory j.1 = g
  function : ∀ j ∈ js, j.2 <+: buffer s.memory j.1

section Blocks
variable {t : Site} {g : ℕ} {s : JobSystem} {js : List (ℕ × List UInt8)} {j k : ℕ × List UInt8}

theorem Batch.mem_live (hj : j ∈ js) :
    j.1 ∈ Function.update t.live t.i ((js.map Prod.fst).reverse ++ t.live t.i) t.i := by
  rw [Function.update_self]
  exact List.mem_append_left _ (List.mem_reverse.mpr (List.mem_map_of_mem hj))

theorem Batch.bounds (h : Batch t g s js) (hj : j ∈ js) :
    ∃ b ∈ t.bases, b ≤ j.1 ∧ j.1 + Job.size ≤ b + Job.size * t.capacity := by
  have hi := t.thread
  exact ⟨t.bases[t.i], List.getElem_mem hi, blocks_bounds (h.pool.mem_blocks hi (Batch.mem_live hj))⟩

theorem Batch.ne_null (h : Batch t g s js) (hj : j ∈ js) : j.1 ≠ nullptr := by
  obtain ⟨b, hb, hlo, -⟩ := h.bounds hj
  have hbase := t.placement.nonnull b hb
  unfold nullptr at *
  omega

theorem Batch.outside (h : Batch t g s js) (hg : t.Outside g) (hj : j ∈ js) :
    g + 4 ≤ j.1 ∨ j.1 + Job.size ≤ g := by
  obtain ⟨b, hb, hlo, hhi⟩ := h.bounds hj
  have hout := hg b hb
  omega

theorem Batch.nodup (h : Batch t g s js) : (js.map Prod.fst).Nodup := by
  have hnodup := h.pool.live_nodup t.i
  rw [Function.update_self] at hnodup
  exact List.nodup_reverse.mp (List.nodup_append.mp hnodup).1

theorem Batch.apart (h : Batch t g s js) (hj : j ∈ js) (hk : k ∈ js) (hne : j.1 ≠ k.1) :
    j.1 + Job.size ≤ k.1 ∨ k.1 + Job.size ≤ j.1 :=
  h.pool.live_apart t.placement (Batch.mem_live hj) (Batch.mem_live hk) (Or.inr hne)

theorem buffer_eq {m m' : Memory} {p : ℕ} (h : m.Same m' p (p + Job.size)) :
    buffer m' p = buffer m p := by
  refine loadBytes_eq (h.mono (Nat.le_add_right p 28) ?_)
  unfold Job.size Job.functionSize
  omega

/-- The fields of a job whose block is as before. -/
theorem Batch.keep (h : Batch t g s js) {m : Memory} (hj : j ∈ js)
    (hsame : s.memory.Same m j.1 (j.1 + Job.size)) :
    Job.state m j.1 = Job.State.ready.code ∧ Job.sourcePool m j.1 = s.pool.self ∧
      Job.groupCounter m j.1 = g ∧ j.2 <+: buffer m j.1 := by
  have hfields := hsame.mono (Nat.le_add_right j.1 8) le_rfl
  refine ⟨?_, ?_, ?_, ?_⟩
  · rw [Job.state_of_same hfields, h.ready j hj]
  · rw [Job.sourcePool_of_same hsame, h.source j hj]
  · rw [Job.groupCounter_of_same hfields, h.group j hj]
  · rw [buffer_eq hsame]
    exact h.function j hj

end Blocks

section Counters
variable {m : Memory} {g lo hi : ℕ}

theorem load_incrementAt (h : m.load 4 g + 1 < 2 ^ 32) :
    (incrementAt m g).load 4 g = m.load 4 g + 1 := by
  have hlt : m.load 4 g < 2 ^ 32 := by omega
  have hvalue : (UInt32.ofNat (m.load 4 g)).toNat = m.load 4 g := UInt32.toNat_ofNat_of_lt hlt
  rw [incrementAt, AtomicCounter.increment_toNat (by rwa [hvalue]), hvalue,
    load_store_self _ _ (by omega)]

theorem load_decrementAt (m : Memory) (g : ℕ) :
    (decrementAt m g).load 4 g = m.load 4 g - 1 := by
  have hlt : m.load 4 g < 2 ^ 32 := load_lt 4 m g
  have hvalue : (UInt32.ofNat (m.load 4 g)).toNat = m.load 4 g := UInt32.toNat_ofNat_of_lt hlt
  rw [decrementAt, AtomicCounter.decrement_toNat, hvalue, load_store_self _ _ (by omega)]

end Counters

theorem queue_of_workers {s s' : JobSystem} (h : s'.workers = s.workers) (v : ℕ) :
    s'.queue v = s.queue v := by
  simp only [JobSystem.queue, JobSystem.worker, h]

section Take
variable {t : Site} {g : ℕ} {s : JobSystem} {js : List (ℕ × List UInt8)} {j : ℕ × List UInt8}

/-- The bytes after the newest job has run. -/
def afterRun (m : Memory) (g p : ℕ) : Memory :=
  if g ≠ nullptr then decrementAt (execute m p) g else execute m p

theorem same_afterRun {m : Memory} {p lo hi : ℕ} (hp : hi ≤ p + 8 ∨ p + 12 ≤ lo)
    (hg : g ≠ nullptr → hi ≤ g ∨ g + 4 ≤ lo) : m.Same (afterRun m g p) lo hi := by
  unfold afterRun
  split
  · next hne => exact (same_execute m p hp).trans (same_store (hg hne))
  · exact same_execute m p hp

theorem state_afterRun {m : Memory} {p : ℕ} (hg : g ≠ nullptr → g + 4 ≤ p ∨ p + Job.size ≤ g) :
    Job.state (afterRun m g p) p = Job.State.completed.code := by
  have hcompleted : Job.state (execute m p) p = Job.State.completed.code :=
    Job.state_setState_self _ _ _
  unfold afterRun
  split
  · next hne =>
    have hcounter := hg hne
    unfold Job.size at hcounter
    have hword : (execute m p).Same (decrementAt (execute m p) g) (p + 8) (p + 12) :=
      same_store (by omega)
    exact (hword.load_eq le_rfl le_rfl).trans hcompleted
  · exact hcompleted

theorem runJob_afterRun {p : ℕ} (hself : s.pool.self ≠ nullptr)
    (hsource : Job.sourcePool s.memory p = s.pool.self) (hgroup : Job.groupCounter s.memory p = g)
    (hg : g ≠ nullptr → g + 4 ≤ p ∨ p + Job.size ≤ g) :
    s.runJob p = { s with
      memory := afterRun s.memory g p
      pool := s.pool.freeJob (afterRun s.memory g p) p
      activeJobs := AtomicCounter.decrement s.activeJobs } := by
  have hgroup' : Job.groupCounter (execute s.memory p) p = g := by
    rw [execute, Job.groupCounter_setState, Job.groupCounter_setState, hgroup]
  have hsource' : Job.sourcePool (afterRun s.memory g p) p = s.pool.self := by
    have hword : s.memory.Same (afterRun s.memory g p) p (p + 8) := by
      refine same_afterRun (by omega) fun hne => ?_
      have hout := hg hne
      unfold Job.size at hout
      omega
    exact (hword.load_eq le_rfl le_rfl).trans hsource
  have hmemory : (if Job.groupCounter (execute s.memory p) p ≠ nullptr then
      decrementAt (execute s.memory p) (Job.groupCounter (execute s.memory p) p)
      else execute s.memory p) = afterRun s.memory g p := by
    rw [hgroup', afterRun]
  simp only [JobSystem.runJob, hmemory, hsource', if_pos hself]

/-- The blocks of the pool stay as they are split, but for the job that has run. -/
theorem inv_afterRun {capacity i p : ℕ} {bases : List ℕ} {live : ℕ → List ℕ}
    (h : JobPool.Inv capacity bases s.pool s.memory live) (hplace : JobPool.Placement capacity bases)
    (hp : p ∈ live i)
    (hg : g ≠ nullptr → ∀ b ∈ bases, g + 4 ≤ b ∨ b + Job.size * capacity ≤ g) :
    JobPool.Inv capacity bases s.pool (afterRun s.memory g p) live := by
  have hi := h.lt_of_mem hp
  have hsame : ∀ lo hi', hi' ≤ p + 8 ∨ p + 24 ≤ lo → s.memory.Same (execute s.memory p) lo hi' :=
    fun lo hi' hout => same_execute s.memory p (by omega)
  have hexecuted := h.of_fields hplace hi (h.mem_blocks hi hp) hsame
  unfold afterRun
  split
  · next hne => exact hexecuted.of_arrays fun b hb => same_store (hg hne b hb).symm
  · exact hexecuted

theorem Batch.getNextJob (h : Batch t g s (js ++ [j])) :
    s.getNextJob t.w = (some j.1, s.setQueue t.w (s.queue t.w).pop.2) ∧
      Represents t.queueCapacity (s.queue t.w).pop.2 (t.entries ++ js.map Prod.fst) := by
  have hj : j ∈ js ++ [j] := List.mem_append_right _ (List.mem_singleton_self j)
  have hentries : t.entries ++ (js ++ [j]).map Prod.fst = (t.entries ++ js.map Prod.fst) ++ [j.1] := by
    simp
  have hlength := h.queue.length
  rw [hentries, List.length_append, List.length_singleton] at hlength
  obtain ⟨hpop, hqueue⟩ := h.queue.pop (by omega)
  rw [hentries, List.getLast?_concat] at hpop
  rw [hentries, List.dropLast_concat] at hqueue
  have hready : Job.isReady s.memory j.1 = true :=
    Job.isReady_iff.mpr ⟨h.ne_null hj, h.ready j hj⟩
  have hjob : (s.setQueue t.w (s.queue t.w).pop.2).readyJob (s.queue t.w).pop.1 = some j.1 := by
    rw [hpop, readyJob, setQueue_memory, Option.filter_some, if_pos hready]
  refine ⟨?_, hqueue⟩
  simp only [JobSystem.getNextJob, hjob]

theorem Batch.runJob (h : Batch t g s (js ++ [j])) (hg : g ≠ nullptr → t.Outside g)
    (q : FixedWorkStealingQueue ℕ) :
    ∃ s', (s.setQueue t.w q).runJob j.1 = s' ∧ s'.memory = afterRun s.memory g j.1 ∧
      s'.pool = s.pool.freeJob (afterRun s.memory g j.1) j.1 ∧
      s'.activeJobs = AtomicCounter.decrement s.activeJobs ∧
      s'.workers = (s.setQueue t.w q).workers := by
  have hj : j ∈ js ++ [j] := List.mem_append_right _ (List.mem_singleton_self j)
  have hrun := runJob_afterRun (s := s.setQueue t.w q) h.self_ne (h.source j hj) (h.group j hj)
    fun hne => h.outside (hg hne) hj
  exact ⟨_, hrun, rfl, rfl, rfl, rfl⟩

theorem Batch.freeJob (h : Batch t g s (js ++ [j])) (hg : g ≠ nullptr → t.Outside g) :
    JobPool.Inv t.capacity t.bases (s.pool.freeJob (afterRun s.memory g j.1) j.1)
        (afterRun s.memory g j.1)
        (Function.update t.live t.i ((js.map Prod.fst).reverse ++ t.live t.i)) ∧
      (s.pool.freeJob (afterRun s.memory g j.1) j.1).self = s.pool.self := by
  have hj : j ∈ js ++ [j] := List.mem_append_right _ (List.mem_singleton_self j)
  have hmem := Batch.mem_live (t := t) hj
  have hrun := inv_afterRun h.pool t.placement hmem hg
  obtain ⟨hfree, hself⟩ := hrun.freeJob t.placement hmem
  refine ⟨?_, hself⟩
  have hlive : (fun u => (Function.update t.live t.i
      (((js ++ [j]).map Prod.fst).reverse ++ t.live t.i) u).erase j.1) =
        Function.update t.live t.i ((js.map Prod.fst).reverse ++ t.live t.i) := by
    funext u
    by_cases hu : u = t.i
    · subst hu
      simp
    · have hother : j.1 ∉ t.live u := by
        intro hmem'
        refine hu (hrun.owner_unique t.placement (p := j.1) ?_ hmem)
        rwa [Function.update_of_ne hu]
      rw [Function.update_of_ne hu, Function.update_of_ne hu, List.erase_of_not_mem hother]
  rwa [hlive] at hfree

theorem Batch.same_others (h : Batch t g s (js ++ [j])) (hg : g ≠ nullptr → t.Outside g) :
    ∀ k ∈ js, s.memory.Same (afterRun s.memory g j.1) k.1 (k.1 + Job.size) := by
  have hj : j ∈ js ++ [j] := List.mem_append_right _ (List.mem_singleton_self j)
  have hnodup := h.nodup
  rw [List.map_append, List.nodup_append] at hnodup
  intro k hk
  have hk' := List.mem_append_left [j] hk
  have hne : k.1 ≠ j.1 := hnodup.2.2 k.1 (List.mem_map_of_mem hk) j.1 (by simp)
  have hapart := h.apart hk' hj hne
  refine same_afterRun ?_ fun hg0 => ?_
  · unfold Job.size at *
    omega
  · have hout := h.outside (hg hg0) hk'
    omega

theorem Batch.tryRunJob (h : Batch t g s (js ++ [j])) (hg : g ≠ nullptr → t.Outside g) :
    ∃ s', s.tryRunJob t.w = (some j.1, s') ∧ Batch t g s' js ∧
      s'.memory = afterRun s.memory g j.1 := by
  have hj : j ∈ js ++ [j] := List.mem_append_right _ (List.mem_singleton_self j)
  obtain ⟨hnext, hqueue⟩ := h.getNextJob
  obtain ⟨hfree, hself⟩ := h.freeJob hg
  obtain ⟨s', hrun, hmemory, hpool, hactive, hworkers⟩ := h.runJob hg (s.queue t.w).pop.2
  have hqueues := queue_of_workers hworkers
  have hkeep := fun k hk => h.keep (List.mem_append_left [j] hk) (h.same_others hg k hk)
  refine ⟨s', ?_, ?_, hmemory⟩
  · rw [JobSystem.tryRunJob, hnext, ← hrun]
  constructor
  case pool => rwa [hpool, hmemory]
  case self_ne =>
    rw [hpool, hself]
    exact h.self_ne
  case worker =>
    rw [hworkers, setQueue_workers_length]
    exact h.worker
  case queue => rwa [hqueues, queue_setQueue h.worker]
  case queues =>
    intro v hv
    rw [hqueues, queue_setQueue_ne hv]
    exact h.queues v hv
  case active =>
    have hold := h.active
    rw [List.length_append, List.length_singleton] at hold
    rw [hactive, AtomicCounter.decrement_toNat]
    omega
  case count =>
    intro hg0
    have hcount := h.count hg0
    rw [List.length_append, List.length_singleton] at hcount
    have hexecute : (execute s.memory j.1).load 4 g = s.memory.load 4 g := by
      have hout := h.outside (hg hg0) hj
      unfold Job.size at hout
      exact (same_execute s.memory j.1 (by omega)).load_eq le_rfl le_rfl
    rw [hmemory, afterRun, if_pos hg0, load_decrementAt, hexecute, hcount, Nat.add_sub_cancel]
  case ready => exact fun k hk => hmemory ▸ (hkeep k hk).1
  case source =>
    rw [hmemory, hpool, hself]
    exact fun k hk => (hkeep k hk).2.1
  case group => exact fun k hk => hmemory ▸ (hkeep k hk).2.2.1
  case function => exact fun k hk => hmemory ▸ (hkeep k hk).2.2.2

end Take

/-- There is room for the jobs of a batch: blocks, slots of the queue and numbers to count them. -/
structure Site.Room (t : Site) (jobs : ℕ) : Prop where
  blocks : (t.live t.i).length + jobs ≤ t.capacity
  slots : t.entries.length + jobs ≤ t.queueCapacity
  bottom : (t.system.queue t.w).bottom.toNat + jobs < 2 ^ 64
  active : t.system.activeJobs.toNat + jobs < 2 ^ 32

section Run
variable {t : Site} {g : ℕ} {s s₁ : JobSystem} {js : List (ℕ × List UInt8)} {p : ℕ}
variable {function : List UInt8}

theorem prefix_buffer {m : Memory} {self i : ℕ} (hfn : function.length ≤ Job.functionSize) :
    function <+: buffer (JobPool.construct m p self i function) p := by
  have hlength : (buffer (JobPool.construct m p self i function) p).length = Job.functionSize := by
    simp [buffer, loadBytes]
  refine List.prefix_iff_getElem.mpr ⟨by rwa [hlength], fun k hk => ?_⟩
  simp only [buffer, loadBytes, List.getElem_map, List.getElem_range]
  exact (JobPool.construct_function hk).symm

theorem Batch.allocateJob (h : Batch t g s js) {m₀ : Memory}
    (harrays : ∀ b ∈ t.bases, s.memory.Same m₀ b (b + Job.size * t.capacity))
    (hfn : function.length ≤ Job.functionSize)
    (hfree : (t.live t.i).length + js.length < t.capacity) :
    ∃ p pool m done, s.pool.allocateJob m₀ t.i function = (.ok p, pool, m, done) ∧
      pool.self = s.pool.self ∧
      JobPool.Inv t.capacity t.bases pool m
        (Function.update t.live t.i (p :: ((js.map Prod.fst).reverse ++ t.live t.i))) ∧
      (Job.sourcePool m p = s.pool.self ∧ Job.groupCounter m p = nullptr ∧
        Job.state m p = Job.State.ready.code ∧ function <+: buffer m p) ∧
      (∀ k ∈ js, k.1 ≠ p ∧ m₀.Same m k.1 (k.1 + Job.size)) ∧
      ∀ lo hi, (∀ b ∈ t.bases, hi ≤ b ∨ b + Job.size * t.capacity ≤ lo) → m₀.Same m lo hi := by
  have hi := t.thread
  have hroom := hfn.trans Job.functionSize_le_room
  have hinv := h.pool.of_arrays harrays
  obtain ⟨result, pool, m, done, hcall, -, -, hcases⟩ := hinv.allocateJob t.placement hi hroom
  rcases hcases with ⟨-, -, hall, -⟩ | ⟨p, m₁, rfl, -⟩
  · -- every block would be live
    have hsub : blocks t.bases[t.i] Job.size t.capacity ⊆
        (js.map Prod.fst).reverse ++ t.live t.i := by
      intro q hq
      have hlive := hall q hq
      rwa [Function.update_self] at hlive
    have hle := (blocks_nodup (by decide)).subperm hsub |>.length_le
    rw [blocks_length, List.length_append, List.length_reverse, List.length_map] at hle
    omega
  · obtain ⟨hself, -, -, hinv', ⟨hsource, hgroup, hstate⟩, -, hjobs⟩ :=
      hinv.allocated t.placement hi hroom hcall
    rw [Function.update_self, Function.update_idem] at hinv'
    have houtside := (hinv.contained t.placement hi hroom hcall).outside
    refine ⟨p, pool, m, done, hcall, hself, hinv', ⟨hsource, hgroup, hstate, ?_⟩, ?_, ?_⟩
    · rw [JobPool.allocateJob_memory hcall]
      exact prefix_buffer hfn
    · exact fun k hk => hjobs t.i k.1 (Batch.mem_live hk)
    · intro lo hi' hout x hlo hhi
      exact houtside x fun b hb => (hout b hb).imp (hhi.trans_le ·) (·.trans hlo)

theorem Batch.scheduleJob (h : Batch t g s js) (hworkers : s₁.workers = s.workers)
    (hactive : s₁.activeJobs = s.activeJobs) (hself : s₁.pool.self = s.pool.self)
    (hinv : JobPool.Inv t.capacity t.bases s₁.pool s₁.memory
      (Function.update t.live t.i (p :: ((js.map Prod.fst).reverse ++ t.live t.i))))
    (hsource : Job.sourcePool s₁.memory p = s.pool.self)
    (hgroup : Job.groupCounter s₁.memory p = g)
    (hstate : Job.state s₁.memory p = Job.State.ready.code)
    (hfunction : function <+: buffer s₁.memory p)
    (hsame : ∀ k ∈ js, s.memory.Same s₁.memory k.1 (k.1 + Job.size))
    (hcount : g ≠ nullptr → s₁.memory.load 4 g = js.length + 1)
    (hslots : t.entries.length + js.length < t.queueCapacity)
    (hbottom : (s.queue t.w).bottom.toNat + 1 < 2 ^ 64)
    (hroom : s.activeJobs.toNat + 1 < 2 ^ 32) :
    Batch t g (s₁.scheduleJob t.w p) (js ++ [(p, function)]) := by
  have hqueues := queue_of_workers hworkers
  have hworker : t.w < s₁.workers.length := hworkers ▸ h.worker
  have hnew : ∀ {P : ℕ × List UInt8 → Prop}, (∀ k ∈ js, P k) → P (p, function) →
      ∀ k ∈ js ++ [(p, function)], P k := by
    intro P hold hlast k hk
    rcases List.mem_append.mp hk with hk | hk
    · exact hold k hk
    · exact List.mem_singleton.mp hk ▸ hlast
  have hkeep := fun k hk => h.keep hk (hsame k hk)
  constructor
  case pool =>
    rw [List.map_append, List.reverse_append]
    exact hinv
  case self_ne => exact hself.symm ▸ h.self_ne
  case worker =>
    have hlength : (s₁.setQueue t.w ((s₁.queue t.w).push p)).workers.length = s₁.workers.length :=
      setQueue_workers_length
    exact hlength.symm ▸ hworker
  case queue =>
    have hpush : (s₁.scheduleJob t.w p).queue t.w = (s.queue t.w).push p :=
      (queue_setQueue hworker).trans (by rw [hqueues])
    rw [hpush, List.map_append, ← List.append_assoc]
    refine h.queue.push ?_ hbottom p
    rwa [List.length_append, List.length_map]
  case queues =>
    intro v hv
    exact (queue_setQueue_ne hv).trans ((hqueues v).trans (h.queues v hv))
  case active =>
    have hold := h.active
    change (AtomicCounter.increment s₁.activeJobs).toNat = _
    rw [hactive, AtomicCounter.increment_toNat hroom, List.length_append, List.length_singleton]
    omega
  case count =>
    intro hg0
    rw [List.length_append, List.length_singleton]
    exact hcount hg0
  case ready => exact hnew (fun k hk => (hkeep k hk).1) hstate
  case source => exact hnew (fun k hk => (hkeep k hk).2.1.trans hself.symm) (hsource.trans hself.symm)
  case group => exact hnew (fun k hk => (hkeep k hk).2.2.1) hgroup
  case function => exact hnew (fun k hk => (hkeep k hk).2.2.2) hfunction

theorem Batch.groupRun (h : Batch t g s js) (hg : g ≠ nullptr) (hlt : g < 2 ^ 64)
    (hout : t.Outside g) (hfn : function.length ≤ Job.functionSize)
    (hfree : (t.live t.i).length + js.length < t.capacity)
    (hslots : t.entries.length + js.length < t.queueCapacity)
    (hbottom : (s.queue t.w).bottom.toNat + 1 < 2 ^ 64)
    (hroom : s.activeJobs.toNat + 1 < 2 ^ 32) :
    ∃ p s', s.groupRun t.w t.i g function = (.returned, s') ∧
      Batch t g s' (js ++ [(p, function)]) ∧
      (s'.queue t.w).bottom.toNat = (s.queue t.w).bottom.toNat + 1 := by
  have hcount := h.count hg
  have hactive := h.active
  have hcounted : (incrementAt s.memory g).load 4 g = js.length + 1 := by
    rw [load_incrementAt (by omega), hcount]
  have harrays : ∀ b ∈ t.bases, s.memory.Same (incrementAt s.memory g) b (b + Job.size * t.capacity) :=
    fun b hb => same_store (hout b hb).symm
  obtain ⟨p, pool, m, done, hcall, hself, hinv, ⟨hsource, -, hstate, hfunction⟩, hjobs, houtside⟩ :=
    h.allocateJob harrays hfn hfree
  have hmem : p ∈ Function.update t.live t.i
      (p :: ((js.map Prod.fst).reverse ++ t.live t.i)) t.i := by
    rw [Function.update_self]
    exact List.mem_cons_self
  have hi := t.thread
  have hpb := hinv.mem_blocks hi hmem
  have hp := blocks_bounds hpb
  have hbase := t.placement.nonnull _ (List.getElem_mem hi)
  have hpg := hout _ (List.getElem_mem hi)
  have hnull : p ≠ nullptr := by
    unfold nullptr at *
    omega
  set m' := Job.setGroupCounter m p g with hm'
  have hfields : ∀ {lo hi : ℕ}, hi ≤ p + 16 ∨ p + 24 ≤ lo → m.Same m' lo hi := fun h => same_store h
  refine ⟨p, ({ s with memory := m', pool := pool } : JobSystem).scheduleJob t.w p, ?_, ?_, ?_⟩
  · simp only [JobSystem.groupRun, makeJob, JobSystem.allocateJob, hcall, if_neg hnull, hm']
  · refine h.scheduleJob rfl rfl hself ?_ ?_ ?_ ?_ ?_ ?_ ?_ hslots hbottom hroom
    · exact hinv.of_fields t.placement hi hpb fun lo hi' h => hfields (by omega)
    · exact (Job.sourcePool_setGroupCounter _ _ _).trans hsource
    · exact Job.groupCounter_setGroupCounter_self _ _ hlt
    · exact (Job.state_setGroupCounter _ _ _).trans hstate
    · have hbuffer : buffer m' p = buffer m p := loadBytes_eq (hfields (by omega))
      exact hbuffer.symm ▸ hfunction
    · intro k hk
      obtain ⟨hne, hsame⟩ := hjobs k hk
      have hcounter := h.outside hout hk
      have hk' : k.1 ∈ Function.update t.live t.i
          (p :: ((js.map Prod.fst).reverse ++ t.live t.i)) t.i := by
        have hlive := Batch.mem_live (t := t) hk
        rw [Function.update_self] at hlive ⊢
        exact List.mem_cons_of_mem p hlive
      have hapart := hinv.live_apart t.placement hk' hmem (Or.inr hne)
      have hincrement : s.memory.Same (incrementAt s.memory g) k.1 (k.1 + Job.size) :=
        same_store (by omega)
      refine (hincrement.trans hsame).trans (hfields ?_)
      unfold Job.size at *
      omega
    · intro _
      have hword : m.Same m' g (g + 4) := hfields (by unfold Job.size at *; omega)
      have harray : (incrementAt s.memory g).Same m g (g + 4) := houtside _ _ hout
      rw [hword.load_eq le_rfl le_rfl, harray.load_eq le_rfl le_rfl, hcounted]
  · have hpush : (({ s with memory := m', pool := pool } : JobSystem).scheduleJob t.w p).queue t.w =
        (s.queue t.w).push p := queue_setQueue h.worker
    rw [hpush, push_bottom, toNat_add_one hbottom]

theorem Batch.groupRuns (hg : g ≠ nullptr) (hlt : g < 2 ^ 64) (hout : t.Outside g)
    {functions : List (List UInt8)} (hfns : ∀ f ∈ functions, f.length ≤ Job.functionSize)
    (hroom : t.Room (js.length + functions.length)) (h : Batch t g s js)
    (hbottom : (s.queue t.w).bottom.toNat = (t.system.queue t.w).bottom.toNat + js.length) :
    ∃ ks s', s.groupRuns t.w t.i g functions = (.returned, s') ∧ ks.map Prod.snd = functions ∧
      Batch t g s' (js ++ ks) := by
  induction functions generalizing s js with
  | nil => exact ⟨[], s, rfl, rfl, by rwa [List.append_nil]⟩
  | cons function functions ih =>
    have hblocks := hroom.blocks
    have hslots := hroom.slots
    have hindex := hroom.bottom
    have hactive := hroom.active
    rw [List.length_cons] at hblocks hslots hindex hactive
    have hold := h.active
    obtain ⟨p, s₁, hrun, hbatch, hnext⟩ := h.groupRun hg hlt hout
      (hfns function List.mem_cons_self) (by omega) (by omega) (by omega) (by omega)
    have hlength : (js ++ [(p, function)]).length + functions.length =
        js.length + (function :: functions).length := by
      simp only [List.length_append, List.length_cons, List.length_nil]
      omega
    obtain ⟨ks, s', hruns, hks, hbatch'⟩ := ih (fun f hf => hfns f (List.mem_cons_of_mem _ hf))
      (hlength ▸ hroom) hbatch (by rw [hnext, hbottom, List.length_append, List.length_singleton]; omega)
    refine ⟨(p, function) :: ks, s', ?_, ?_, ?_⟩
    · rw [JobSystem.groupRuns, hrun]
      exact hruns
    · rw [List.map_cons, hks]
    · rwa [List.append_assoc] at hbatch'

theorem Batch.runJobs {functions : List (List UInt8)}
    (hfns : ∀ f ∈ functions, f.length ≤ Job.functionSize)
    (hroom : t.Room (js.length + functions.length)) (h : Batch t nullptr s js)
    (hbottom : (s.queue t.w).bottom.toNat = (t.system.queue t.w).bottom.toNat + js.length) :
    ∃ ks s', s.runJobs t.w t.i functions = (ks.map Prod.fst, s') ∧ ks.map Prod.snd = functions ∧
      Batch t nullptr s' (js ++ ks) := by
  induction functions generalizing s js with
  | nil => exact ⟨[], s, rfl, rfl, by rwa [List.append_nil]⟩
  | cons function functions ih =>
    have hblocks := hroom.blocks
    have hslots := hroom.slots
    have hindex := hroom.bottom
    have hactive := hroom.active
    rw [List.length_cons] at hblocks hslots hindex hactive
    have hold := h.active
    obtain ⟨p, pool, m, done, hcall, hself, hinv, ⟨hsource, hgroup, hstate, hfunction⟩, hjobs, -⟩ :=
      h.allocateJob (fun _ _ => .refl _ _ _) (hfns function List.mem_cons_self) (by omega)
    have hworkers : ({ s with memory := m, pool := pool } : JobSystem).workers = s.workers := rfl
    have hbatch := h.scheduleJob hworkers rfl hself hinv hsource hgroup hstate hfunction
      (fun k hk => (hjobs k hk).2) (absurd rfl) (by omega) (by omega) (by omega)
    have hpush : (({ s with memory := m, pool := pool } : JobSystem).scheduleJob t.w p).queue t.w =
        (s.queue t.w).push p := queue_setQueue h.worker
    have hlength : (js ++ [(p, function)]).length + functions.length =
        js.length + (function :: functions).length := by
      simp only [List.length_append, List.length_cons, List.length_nil]
      omega
    obtain ⟨ks, s', hruns, hks, hbatch'⟩ := ih (fun f hf => hfns f (List.mem_cons_of_mem _ hf))
      (hlength ▸ hroom) hbatch (by
        rw [hpush, push_bottom, toNat_add_one (by omega), List.length_append, List.length_singleton]
        omega)
    refine ⟨(p, function) :: ks, s', ?_, ?_, ?_⟩
    · simp only [JobSystem.runJobs, makeJob, JobSystem.allocateJob, hcall, hruns, List.map_cons]
    · rw [List.map_cons, hks]
    · rwa [List.append_assoc] at hbatch'

end Run

section Loops
variable {t : Site} {g : ℕ} {s : JobSystem} {js : List (ℕ × List UInt8)} {j : ℕ × List UInt8}

/-- The loop of `wait_for_all` executes the jobs of the batch from the newest to the oldest. -/
theorem Batch.waitForAll (h : Batch t g s js) (hg : g ≠ nullptr) (hout : t.Outside g) :
    ∃ s', Batch t g s' [] ∧ ∀ turns, waitForAll turns s t.w g =
      if js.length < turns then some (js.reverse.map fun j => (j.1, buffer s.memory j.1), s')
      else none := by
  induction js using List.reverseRecOn generalizing s with
  | nil =>
    refine ⟨s, h, fun turns => ?_⟩
    cases turns with
    | zero => rfl
    | succ turns =>
      have hcount : ¬ s.memory.load 4 g > 0 := by
        rw [h.count hg]
        exact lt_irrefl 0
      rw [JobSystem.waitForAll, if_neg hcount, if_pos (by simp)]
      rfl
  | append_singleton js j ih =>
    obtain ⟨s₁, hturn, hbatch, hmemory⟩ := h.tryRunJob fun _ => hout
    obtain ⟨s', hdone, hloop⟩ := ih hbatch
    have hcount : s.memory.load 4 g > 0 := by
      rw [h.count hg, List.length_append, List.length_singleton]
      exact Nat.succ_pos _
    refine ⟨s', hdone, fun turns => ?_⟩
    cases turns with
    | zero => rfl
    | succ turns =>
      have hbuffers : (js.reverse.map fun k => (k.1, buffer s₁.memory k.1)) =
          js.reverse.map fun k => (k.1, buffer s.memory k.1) := by
        refine List.map_congr_left fun k hk => ?_
        rw [hmemory, buffer_eq (h.same_others (fun _ => hout) k (List.mem_reverse.mp hk))]
      have hlt : (js ++ [j]).length < turns + 1 ↔ js.length < turns := by simp
      rw [JobSystem.waitForAll, if_pos hcount, hturn]
      simp only [hloop turns, hbuffers, hlt]
      split <;> simp

theorem Batch.completed (h : Batch t g s js) (hg : g ≠ nullptr → t.Outside g) (hj : j ∈ js) :
    Job.state (afterRun s.memory g j.1) j.1 = Job.State.completed.code :=
  state_afterRun fun hne => h.outside (hg hne) hj

/-- The loop of `wait` executes the jobs of the batch from the newest down to the one it waits
for, and no older one. -/
theorem Batch.wait {newer : List (ℕ × List UInt8)} (h : Batch t g s (js ++ j :: newer))
    (hg : g ≠ nullptr → t.Outside g) :
    ∃ s', Batch t g s' js ∧
      (∀ turns, wait turns s t.w j.1 =
        if newer.length + 1 < turns then some (.returned, s') else none) ∧
      (∀ k ∈ j :: newer, Job.state s'.memory k.1 = Job.State.completed.code) ∧
      ∀ lo hi, (∀ k ∈ j :: newer, hi ≤ k.1 + 8 ∨ k.1 + 12 ≤ lo) →
        (g ≠ nullptr → hi ≤ g ∨ g + 4 ≤ lo) → s.memory.Same s'.memory lo hi := by
  induction newer using List.reverseRecOn generalizing s with
  | nil =>
    have hj : j ∈ js ++ [j] := List.mem_append_right _ (List.mem_singleton_self j)
    obtain ⟨s', hturn, hbatch, hmemory⟩ := h.tryRunJob hg
    have hpending : Job.state s.memory j.1 ≠ Job.State.completed.code := by
      rw [h.ready j hj]
      decide
    have hdone : Job.state s'.memory j.1 = Job.State.completed.code := by
      rw [hmemory]
      exact h.completed hg hj
    refine ⟨s', hbatch, fun turns => ?_, ?_, fun lo hi hout hcounter => ?_⟩
    · match turns with
      | 0 => rfl
      | 1 => rw [JobSystem.wait, if_neg (h.ne_null hj), if_pos hpending]; rfl
      | turns + 2 =>
        rw [JobSystem.wait, if_neg (h.ne_null hj), if_pos hpending, hturn, JobSystem.wait,
          if_neg (h.ne_null hj), if_neg (not_not.mpr hdone), if_pos (by simp)]
    · intro k hk
      exact List.mem_singleton.mp hk ▸ hdone
    · rw [hmemory]
      exact same_afterRun (hout j List.mem_cons_self) hcounter
  | append_singleton newer k ih =>
    have hsplit : js ++ j :: (newer ++ [k]) = (js ++ j :: newer) ++ [k] := by simp
    rw [hsplit] at h
    have hj : j ∈ (js ++ j :: newer) ++ [k] := by simp
    have hk : k ∈ (js ++ j :: newer) ++ [k] := by simp
    obtain ⟨s₁, hturn, hbatch, hmemory⟩ := h.tryRunJob hg
    have hpending : Job.state s.memory j.1 ≠ Job.State.completed.code := by
      rw [h.ready j hj]
      decide
    obtain ⟨s', hdone, hloop, hcompleted, hframe⟩ := ih hbatch
    refine ⟨s', hdone, fun turns => ?_, ?_, fun lo hi hout hcounter => ?_⟩
    · cases turns with
      | zero => rfl
      | succ turns =>
        rw [JobSystem.wait, if_neg (h.ne_null hj), if_pos hpending, hturn, hloop turns,
          List.length_append, List.length_singleton]
        simp only [Nat.add_lt_add_iff_right]
    · intro l hl
      rcases List.mem_append.mp (List.cons_append ▸ hl : l ∈ (j :: newer) ++ [k]) with hl | hl
      · exact hcompleted l hl
      · -- the newest job ran first, and the others write to blocks of their own
        rw [List.mem_singleton.mp hl]
        have hnodup := h.nodup
        rw [List.map_append, List.nodup_append] at hnodup
        have hword : s₁.memory.Same s'.memory (k.1 + 8) (k.1 + 12) := by
          refine hframe _ _ (fun x hx => ?_) fun hg0 => ?_
          · have hx' := List.mem_append_right js hx
            have hne : x.1 ≠ k.1 := hnodup.2.2 x.1 (List.mem_map_of_mem hx') k.1 (by simp)
            have hapart := h.apart (List.mem_append_left [k] hx') hk hne
            unfold Job.size at hapart
            omega
          · have hout := h.outside (hg hg0) hk
            unfold Job.size at hout
            omega
        refine (hword.load_eq le_rfl le_rfl).trans ?_
        rw [hmemory]
        exact h.completed hg hk
    · have hfirst : s.memory.Same s₁.memory lo hi := by
        rw [hmemory]
        exact same_afterRun (hout k (by simp)) hcounter
      refine hfirst.trans (hframe lo hi (fun x hx => hout x ?_) hcounter)
      rw [← List.cons_append]
      exact List.mem_append_left _ hx

end Loops

/-- A batch in a group: `run` returns for every function, and `wait_for_all` executes each of the
jobs in one turn, the newest first. Then the counter is zero, and the pool, the queues and
`active_jobs_` are as they were. -/
theorem executed_of_waitForAll (t : Site) (g : ℕ) (hg : g ≠ nullptr) (hlt : g < 2 ^ 64)
    (hout : t.Outside g) (functions : List (List UInt8))
    (hfns : ∀ f ∈ functions, f.length ≤ Job.functionSize) (hroom : t.Room functions.length)
    (h : Batch t g t.system []) :
    ∃ s₁ done s₂, t.system.groupRuns t.w t.i g functions = (.returned, s₁) ∧
      (∀ turns, waitForAll turns s₁ t.w g =
        if functions.length < turns then some (done, s₂) else none) ∧
      (done.map Prod.fst).Nodup ∧
      List.Forall₂ (fun function d => function <+: d.2) functions.reverse done ∧
      Batch t g s₂ [] := by
  have hroom' : t.Room (([] : List (ℕ × List UInt8)).length + functions.length) := by
    rwa [List.length_nil, Nat.zero_add]
  obtain ⟨js, s₁, hruns, hjs, hbatch⟩ := h.groupRuns hg hlt hout hfns hroom' rfl
  rw [List.nil_append] at hbatch
  obtain ⟨s₂, hdone, hloop⟩ := hbatch.waitForAll hg hout
  have hlength : js.length = functions.length := by rw [← hjs, List.length_map]
  rw [hlength] at hloop
  refine ⟨s₁, _, s₂, hruns, hloop, ?_, ?_, hdone⟩
  · rw [List.map_map]
    have hfst : (Prod.fst ∘ fun j : ℕ × List UInt8 => (j.1, buffer s₁.memory j.1)) = Prod.fst := rfl
    rw [hfst, List.map_reverse]
    exact List.nodup_reverse.mpr hbatch.nodup
  · rw [← hjs, ← List.map_reverse, List.forall₂_map_left_iff, List.forall₂_map_right_iff,
      List.forall₂_same]
    exact fun j hj => hbatch.function j (List.mem_reverse.mp hj)

/-- Jobs without a group: `wait` executes the newer jobs and then the one it waits for, one in a
turn, and leaves the older ones in the queue. -/
theorem completed_of_wait (t : Site) (functions : List (List UInt8))
    (hfns : ∀ f ∈ functions, f.length ≤ Job.functionSize) (hroom : t.Room functions.length)
    (h : Batch t nullptr t.system []) :
    ∃ jobs s₁, t.system.runJobs t.w t.i functions = (jobs, s₁) ∧
      jobs.length = functions.length ∧ jobs.Nodup ∧
      ∀ older job newer, jobs = older ++ job :: newer → ∃ s₂,
        (∀ turns, wait turns s₁ t.w job =
          if newer.length + 1 < turns then some (.returned, s₂) else none) ∧
        (∀ p ∈ job :: newer, Job.state s₂.memory p = Job.State.completed.code) ∧
        (∀ p ∈ older, Job.state s₂.memory p = Job.State.ready.code) ∧
        (s₂.queue t.w).entries = t.entries ++ older := by
  have hroom' : t.Room (([] : List (ℕ × List UInt8)).length + functions.length) := by
    rwa [List.length_nil, Nat.zero_add]
  obtain ⟨js, s₁, hruns, hjs, hbatch⟩ := h.runJobs hfns hroom' rfl
  rw [List.nil_append] at hbatch
  have hlength : js.length = functions.length := by rw [← hjs, List.length_map]
  refine ⟨_, s₁, hruns, by rwa [List.length_map], hbatch.nodup, fun older job newer hsplit => ?_⟩
  obtain ⟨olds, rest, rfl, rfl, hrest⟩ := List.map_eq_append_iff.mp hsplit
  obtain ⟨j, news, rfl, rfl, rfl⟩ := List.map_eq_cons_iff.mp hrest
  obtain ⟨s₂, hdone, hloop, hcompleted, -⟩ := hbatch.wait (absurd rfl)
  refine ⟨s₂, fun turns => ?_, fun p hp => ?_, fun p hp => ?_, hdone.queue.entries_eq⟩
  · rw [List.length_map]
    exact hloop turns
  · rw [← List.map_cons] at hp
    obtain ⟨k, hk, rfl⟩ := List.mem_map.mp hp
    exact hcompleted k hk
  · obtain ⟨k, hk, rfl⟩ := List.mem_map.mp hp
    exact hdone.ready k hk

section Start
variable {self capacity queueCapacity workers w i g : ℕ} {bases : List ℕ} {m : Memory}

theorem batch_start (hplace : JobPool.Placement capacity bases) (hself : self < 2 ^ 64)
    (hne : self ≠ nullptr) (hw : w < workers) (hi : i < bases.length)
    (hcount : g ≠ nullptr →
      (start self capacity bases workers queueCapacity m).memory.load 4 g = 0) :
    Batch ⟨capacity, bases, queueCapacity, start self capacity bases workers queueCapacity m, w, i,
      fun _ => [], [], hplace, hi⟩ g (start self capacity bases workers queueCapacity m) [] := by
  constructor
  case pool =>
    have hinv := JobPool.inv_create hplace hself m
    rwa [List.map_nil, List.reverse_nil, List.nil_append, Function.update_eq_self]
  case self_ne => exact hne
  case worker => rwa [start_workers_length]
  case queue =>
    rw [start_queue _ _ _ _ _ _ hw]
    exact represents_fresh queueCapacity
  case queues => exact fun _ _ => rfl
  case active => rfl
  case count => exact hcount
  all_goals exact fun _ hj => absurd hj List.not_mem_nil

/-- One thread with two blocks, just started. -/
abbrev smallSite : Site where
  capacity := 2
  bases := [1024]
  queueCapacity := 4
  system := start 16 2 [1024] 1 4 fun _ => 0
  w := 0
  i := 0
  live := fun _ => []
  entries := []
  placement := ⟨by decide, by decide, by decide, by decide⟩
  thread := by decide

theorem smallSite_room : smallSite.Room [[(1 : UInt8)], [2]].length :=
  ⟨by decide, by decide, by decide, by decide⟩

/-- Two functions in a group at the address 512. -/
theorem executed_of_waitForAll_two :
    ∃ s₁ done s₂, smallSite.system.groupRuns 0 0 512 [[1], [2]] = (.returned, s₁) ∧
      waitForAll 3 s₁ 0 512 = some (done, s₂) ∧ s₂.memory.load 4 512 = 0 := by
  have hbatch : Batch smallSite 512 smallSite.system [] :=
    batch_start smallSite.placement (by decide) (by decide) Nat.zero_lt_one smallSite.thread
      (by decide +kernel)
  have hout : smallSite.Outside 512 := by
    intro b hb
    rw [List.mem_singleton.mp hb]
    decide
  obtain ⟨s₁, done, s₂, hruns, hloop, -, -, hend⟩ := executed_of_waitForAll smallSite 512
    (by decide) (by decide) hout [[1], [2]] (by decide) smallSite_room hbatch
  exact ⟨s₁, done, s₂, hruns, hloop 3, hend.count (by decide)⟩

/-- Two jobs, of which the older one is waited for. -/
theorem completed_of_wait_two :
    ∃ job newer s₁ s₂, smallSite.system.runJobs 0 0 [[1], [2]] = ([job, newer], s₁) ∧
      wait 3 s₁ 0 job = some (.returned, s₂) ∧ (s₂.queue 0).entries = [] := by
  have hbatch : Batch smallSite nullptr smallSite.system [] :=
    batch_start smallSite.placement (by decide) (by decide) Nat.zero_lt_one smallSite.thread
      (absurd rfl)
  obtain ⟨jobs, s₁, hruns, hlength, -, hwait⟩ := completed_of_wait smallSite [[1], [2]] (by decide)
    smallSite_room hbatch
  obtain ⟨job, newer, rfl⟩ := List.length_eq_two.mp hlength
  obtain ⟨s₂, hloop, -, -, hentries⟩ := hwait [] job [newer] rfl
  exact ⟨job, newer, s₁, s₂, hruns, hloop 3, hentries⟩

end Start

end Jobrocket.JobSystem
