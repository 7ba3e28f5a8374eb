import Jobrocket.JobPoolInvariant
import Jobrocket.Library.Interleaving

/-! # Runs of the job pool

Any number of threads allocate, free and recycle in any order. What is assumed of them is
that a thread uses its own index, that a job is freed only while it is live, and that a
callable fits the buffer of a job.
-/
namespace Jobrocket.JobPool
open Library Memory FixedPoolAllocator

/-- A call on the pool. `free_job` may come from any thread, the other two name theirs. -/
inductive Call where
  | allocate (i : ℕ) (function : List UInt8)
  | free (job : ℕ)
  | freeAll (i : ℕ)

/-- What a call did. An allocator's `free` is recorded with the error it printed. -/
inductive Event where
  | allocated (i job : ℕ)
  | refused (i : ℕ) (error : Error)
  | freed (job : ℕ)
  | recycled (job : ℕ) (error : Option Error)
  deriving DecidableEq

def recycledAll (calls : List (ℕ × Option Error)) : List Event :=
  calls.map fun call => .recycled call.1 call.2

def step : Stepper (JobPool × Memory) Call Event
  | (pool, m), .allocate i function =>
    let (result, pool, m, calls) := pool.allocateJob m i function
    some ((pool, m), recycledAll calls ++ [match result with
      | .ok job => .allocated i job
      | .error e => .refused i e])
  | (pool, m), .free job => some ((pool.freeJob m job, m), [.freed job])
  | (pool, m), .freeAll i =>
    let (pool, m, calls) := pool.freeAllThisThread m i
    some ((pool, m), recycledAll calls)

def record (live : ℕ → List ℕ) : Event → ℕ → List ℕ
  | .allocated i job => Function.update live i (job :: live i)
  | .freed job => fun i => (live i).erase job
  | _ => live

/-- The jobs of every thread that are allocated and not yet freed. -/
def liveJobs (es : List Event) : ℕ → List ℕ := es.foldl record fun _ => []

section Runs
variable {capacity : ℕ} {bases : List ℕ} {self : ℕ} {m₀ : Memory} {calls : List Call}

theorem foldl_record_recycledAll (live : ℕ → List ℕ) (done : List (ℕ × Option Error)) :
    (recycledAll done).foldl record live = live := by
  induction done with
  | nil => rfl
  | cons call done ih => exact ih

theorem recycled_none {done : List (ℕ × Option Error)} (h : ∀ call ∈ done, call.2 = none)
    {job : ℕ} {e : Option Error} (hmem : .recycled job e ∈ recycledAll done) : e = none := by
  obtain ⟨call, hcall, heq⟩ := List.mem_map.mp hmem
  cases heq
  exact h call hcall

/-- What the pool relies on: a thread calls with its own index, a callable fits the
buffer, and a job is freed at most once for each allocation. -/
structure Usage (capacity : ℕ) (bases : List ℕ) (addr : ℕ) (m₀ : Memory) (calls : List Call) :
    Prop where
  allocates : ∀ i function, .allocate i function ∈ calls →
    i < bases.length ∧ function.length ≤ Job.functionSize
  freeAlls : ∀ i, .freeAll i ∈ calls → i < bases.length
  frees : ∀ pre job, pre ++ [.free job] <+: calls →
    ∀ s es, step.exec (create addr capacity bases m₀) pre = some (s, es) →
      ∃ i, job ∈ liveJobs es i

/-- The same, except that a callable may take the rest of its block. -/
structure BlockUsage (capacity : ℕ) (bases : List ℕ) (addr : ℕ) (m₀ : Memory) (calls : List Call) :
    Prop where
  allocates : ∀ i function, .allocate i function ∈ calls →
    i < bases.length ∧ function.length ≤ Job.functionRoom
  freeAlls : ∀ i, .freeAll i ∈ calls → i < bases.length
  frees : ∀ pre job, pre ++ [.free job] <+: calls →
    ∀ s es, step.exec (create addr capacity bases m₀) pre = some (s, es) →
      ∃ i, job ∈ liveJobs es i

theorem Usage.block (h : Usage capacity bases self m₀ calls) :
    BlockUsage capacity bases self m₀ calls :=
  ⟨fun i function hmem => (h.allocates i function hmem).imp_right
    (·.trans Job.functionSize_le_room), h.freeAlls, h.frees⟩

/-- The split is kept by every call, and no allocator refuses a block. -/
theorem inv_of_block_exec (hplace : Placement capacity bases) (hself : self < 2 ^ 64)
    (husage : BlockUsage capacity bases self m₀ calls) {pre : List Call} (hpre : pre <+: calls)
    {s : JobPool × Memory} {es : List Event}
    (h : step.exec (create self capacity bases m₀) pre = some (s, es)) :
    Inv capacity bases s.1 s.2 (liveJobs es) ∧ ∀ job e, .recycled job e ∈ es → e = none := by
  refine Stepper.exec_induction (I := fun _ s es => Inv capacity bases s.1 s.2 (liveJobs es) ∧
    ∀ job e, .recycled job e ∈ es → e = none) ?_ ?_ hpre h
  · exact ⟨inv_create hplace hself m₀, fun _ _ hmem => absurd hmem List.not_mem_nil⟩
  · rintro pre call ⟨pool, m⟩ es s' fs hcall hexec ⟨hinv, hok⟩ hstep
    have hmem := hcall.subset (List.mem_append_right _ (List.mem_singleton_self call))
    have hlive : liveJobs (es ++ fs) = fs.foldl record (liveJobs es) := List.foldl_append
    suffices hnew : Inv capacity bases s'.1 s'.2 (fs.foldl record (liveJobs es)) ∧
        ∀ job e, .recycled job e ∈ fs → e = none by
      rw [hlive]
      refine ⟨hnew.1, fun job e he => ?_⟩
      exact (List.mem_append.mp he).elim (hok job e) (hnew.2 job e)
    cases call with
    | allocate i function =>
      obtain ⟨hi, hfn⟩ := husage.allocates i function hmem
      obtain ⟨result, pool', m', done, hres, -, hdone, hcases⟩ := hinv.allocateJob hplace hi hfn
      simp only [step, hres] at hstep
      cases hstep
      rw [List.foldl_append, foldl_record_recycledAll]
      constructor
      · rcases hcases with ⟨rfl, -, -, hinv', -⟩ | ⟨c, m₁, rfl, -, -, -, -, hinv', -, -⟩
        · exact hinv'
        · exact hinv'
      · intro job e he
        rcases List.mem_append.mp he with he | he
        · exact recycled_none hdone he
        · cases result <;> simp at he
    | free job =>
      obtain ⟨i, hi⟩ := husage.frees pre job hcall _ es hexec
      cases hstep
      exact ⟨(hinv.freeJob hplace hi).1, fun job e he => by simp at he⟩
    | freeAll i =>
      obtain ⟨pool', m', done, hres, hdone, hinv'⟩ :=
        hinv.freeAllThisThread hplace (husage.freeAlls i hmem)
      simp only [step, hres] at hstep
      cases hstep
      rw [foldl_record_recycledAll]
      exact ⟨hinv', fun job e he => recycled_none hdone he⟩

theorem inv_of_exec (hplace : Placement capacity bases) (hself : self < 2 ^ 64)
    (husage : Usage capacity bases self m₀ calls) {pre : List Call} (hpre : pre <+: calls)
    {s : JobPool × Memory} {es : List Event}
    (h : step.exec (create self capacity bases m₀) pre = some (s, es)) :
    Inv capacity bases s.1 s.2 (liveJobs es) ∧ ∀ job e, .recycled job e ∈ es → e = none :=
  inv_of_block_exec hplace hself husage.block hpre h

/-- What holds of the pool at every moment: live jobs do not share a block, and a free
list holds different blocks of its own thread, at most `capacity` of them. -/
structure Safe (capacity : ℕ) (bases : List ℕ) (pool : JobPool) (live : ℕ → List ℕ) : Prop where
  live_nodup : ∀ i, (live i).Nodup
  live_apart : ∀ i j p q, p ∈ live i → q ∈ live j → i ≠ j ∨ p ≠ q →
    p + Job.size ≤ q ∨ q + Job.size ≤ p
  next_le : ∀ i, i < bases.length → (pool.freeList i).next ≤ capacity
  entries_nodup : ∀ i, i < bases.length → (pool.freeList i).entries.Nodup
  entries_own : ∀ i (hi : i < bases.length), ∀ p ∈ (pool.freeList i).entries,
    p ∈ blocks bases[i] Job.size capacity

theorem Inv.safe {pool : JobPool} {m : Memory} {live : ℕ → List ℕ}
    (h : Inv capacity bases pool m live) (hplace : Placement capacity bases) :
    Safe capacity bases pool live where
  live_nodup := h.live_nodup
  live_apart _ _ _ _ hp hq hne := h.live_apart hplace hp hq hne
  next_le i hi := by
    obtain ⟨cs, hshelf⟩ := h.shelf i hi
    exact hshelf.next_le
  entries_nodup i hi := by
    obtain ⟨cs, hshelf⟩ := h.shelf i hi
    exact (List.nodup_append.mp (List.nodup_append.mp hshelf.nodup).1).2.1
  entries_own i hi p hp := by
    obtain ⟨cs, hshelf⟩ := h.shelf i hi
    exact hshelf.mem_blocks (List.mem_append_left _ (List.mem_append_right _ hp))

/-- Job pool safety: at every moment of every run the pool is safe and every `free` of an
allocator has succeeded, and an allocation is refused exactly if all blocks of its thread
are live. -/
theorem safe_of_exec (capacity : ℕ) (bases : List ℕ) (hplace : Placement capacity bases)
    (self : ℕ) (hself : self < 2 ^ 64) (m₀ : Memory) (calls : List Call)
    (husage : Usage capacity bases self m₀ calls) (pre : List Call) (hpre : pre <+: calls)
    (pool : JobPool) (m : Memory) (es : List Event)
    (h : step.exec (create self capacity bases m₀) pre = some ((pool, m), es)) :
    Safe capacity bases pool (liveJobs es) ∧ (∀ job e, .recycled job e ∈ es → e = none) ∧
      ∀ i (hi : i < bases.length) function, pre ++ [.allocate i function] <+: calls →
        ∀ s fs, step (pool, m) (.allocate i function) = some (s, fs) →
          ((∃ e, .refused i e ∈ fs) ↔
            ∀ p ∈ blocks bases[i] Job.size capacity, p ∈ liveJobs es i) := by
  obtain ⟨hinv, hok⟩ := inv_of_exec hplace hself husage hpre h
  refine ⟨hinv.safe hplace, hok, ?_⟩
  intro i hi function hcall s fs hstep
  have hmem := hcall.subset (List.mem_append_right _ (List.mem_singleton_self _))
  have hfn := (husage.block.allocates i function hmem).2
  obtain ⟨result, pool', m', done, hres, -, hdone, hcases⟩ := hinv.allocateJob hplace hi hfn
  simp only [step, hres] at hstep
  cases hstep
  rcases hcases with ⟨rfl, -, hall, -, -⟩ | ⟨c, m₁, rfl, -, hc, hnew, -, -, -, -⟩
  · exact iff_of_true ⟨exhausted, by simp⟩ hall
  · refine iff_of_false ?_ fun hall => hnew (hall c hc)
    simp [recycledAll]

end Runs

/-- One thread with one block, which is freed and allocated again. -/
theorem safe_of_exec_recycled :
    ∃ pool m es,
      step.exec (create 16 1 [1024] fun _ => 0) [.allocate 0 [1], .free 1024] =
        some ((pool, m), es) ∧
      Safe 1 [1024] pool (liveJobs es) ∧ (∀ job e, .recycled job e ∈ es → e = none) ∧
      ∀ i (hi : i < [1024].length) function,
        [.allocate 0 [1], .free 1024] ++ [.allocate i function] <+:
          [Call.allocate 0 [1], .free 1024, .allocate 0 [2]] →
        ∀ s fs, step (pool, m) (.allocate i function) = some (s, fs) →
          ((∃ e, .refused i e ∈ fs) ↔
            ∀ p ∈ blocks [1024][i] Job.size 1, p ∈ liveJobs es i) := by
  have hplace : Placement 1 [1024] := ⟨by decide, by decide, by decide, by decide⟩
  have husage : Usage 1 [1024] 16 (fun _ => 0)
      [.allocate 0 [1], .free 1024, .allocate 0 [2]] := by
    refine ⟨fun i function hmem => ?_, by simp, ?_⟩
    · simp only [List.mem_cons, Call.allocate.injEq, reduceCtorEq, List.not_mem_nil, false_or,
        or_false] at hmem
      rcases hmem with ⟨rfl, rfl⟩ | ⟨rfl, rfl⟩ <;> decide
    · intro pre job hpre s es h
      obtain ⟨n, hn, rfl, hcall⟩ := concat_prefix_iff.mp hpre
      have hn : n < 3 := hn
      interval_cases n <;> cases hcall
      cases h
      exact ⟨0, List.mem_singleton_self _⟩
  exact ⟨_, _, _, rfl, safe_of_exec 1 [1024] hplace 16 (by decide) (fun _ => 0) _ husage _
    ⟨[.allocate 0 [2]], rfl⟩ _ _ _ rfl⟩
end Jobrocket.JobPool
