import Jobrocket.JobPoolRuns
import Jobrocket.Library.Unwinding

/-! # Threads do not disturb each other's blocks

What a thread is given, and the bytes of its array, depend on its own calls and on the frees of
its jobs alone: without the calls of the other threads the run goes the same way for it.
-/
namespace Jobrocket.JobPool
open Library Memory FixedPoolAllocator

/-- The calls of thread `i`, whose array begins at `base`, and the frees of its jobs. -/
def Call.concerns (capacity base i : ℕ) : Call → Bool
  | .allocate j _ => j = i
  | .free job => job ∈ blocks base Job.size capacity
  | .freeAll j => j = i

/-- The answer to an allocation of the thread. -/
def Event.answers (i : ℕ) : Event → Bool
  | .allocated j _ => j = i
  | .refused j _ => j = i
  | _ => false

/-- The pools are the same for thread `i`, in its members and in the bytes of its array. -/
structure Alike (capacity base i : ℕ) (s s' : JobPool × Memory) : Prop where
  self_eq : s'.1.self = s.1.self
  allocators_lt : i < s.1.allocators.length ∧ i < s'.1.allocators.length
  freeLists_lt : i < s.1.freeLists.length ∧ i < s'.1.freeLists.length
  allocator_eq : s'.1.allocator i = s.1.allocator i
  freeList_eq : s'.1.freeList i = s.1.freeList i
  bytes : s.2.Same s'.2 base (base + Job.size * capacity)

section Congr
variable {lo hi base i p self capacity : ℕ} {m m' : Memory} {cs live : List ℕ}

theorem drain_congr (h : m.Same m' lo hi) (turns : ℕ) (a : FixedPoolAllocator) (fl : FreeList) :
    ∃ m₁', drain turns a fl m' = ((drain turns a fl m).1, (drain turns a fl m).2.1, m₁',
      (drain turns a fl m).2.2.2) ∧ (drain turns a fl m).2.2.1.Same m₁' lo hi := by
  induction turns generalizing a fl m m' with
  | zero => exact ⟨m', rfl, h⟩
  | succ turns ih =>
    by_cases hempty : fl.empty = true
    · simp only [drain, if_pos hempty]
      exact ⟨m', rfl, h⟩
    · simp only [drain, if_neg hempty]
      rcases a.free_cases fl.pop.1 with ⟨a', hfree⟩ | ⟨e, hfree⟩
      · simp only [hfree m, hfree m']
        obtain ⟨m₁', hdrain, hsame⟩ := ih (h.store 8 fl.pop.1 a.next) a' fl.pop.2
        rw [hdrain]
        exact ⟨m₁', rfl, hsame⟩
      · simp only [hfree m, hfree m']
        obtain ⟨m₁', hdrain, hsame⟩ := ih h a fl.pop.2
        rw [hdrain]
        exact ⟨m₁', rfl, hsame⟩

theorem construct_congr (h : m.Same m' lo hi) (function : List UInt8) :
    (construct m p self i function).Same (construct m' p self i function) lo hi := by
  unfold construct Job.setGroupCounter Job.setState Job.setWorkerAlloc Job.setSourcePool
    Job.setFunction
  exact ((((h.storeBytes _ _).store _ _ _).store _ _ _).store _ _ _).store _ _ _

/-- The allocator reads the first word of its next block only. -/
theorem allocate_congr {a : FixedPoolAllocator}
    (h : a.Represents base Job.size capacity m cs)
    (hsame : m.Same m' base (base + Job.size * capacity)) : a.allocate m' = a.allocate m := by
  cases cs with
  | nil =>
    have hfull := h.full_iff.mpr rfl
    rw [FixedPoolAllocator.allocate, FixedPoolAllocator.allocate, if_pos hfull, if_pos hfull]
  | cons c cs =>
    have hbounds := blocks_bounds (h.mem_blocks c List.mem_cons_self)
    have hnext : a.next = c := h.linked.1
    have hload : m'.load 8 a.next = m.load 8 a.next :=
      hsame.load_eq (by omega) (by unfold Job.size at *; omega)
    rw [FixedPoolAllocator.allocate, FixedPoolAllocator.allocate, hload]

end Congr

section Own
variable {capacity base i : ℕ} {s s' : JobPool × Memory} {cs live : List ℕ}

theorem Alike.shelf (h : Alike capacity base i s s')
    (hshelf : ShelfOf capacity base i s.1 s.2 cs live) :
    ShelfOf capacity base i s'.1 s'.2 cs live := by
  rw [ShelfOf, h.allocator_eq, h.freeList_eq]
  exact hshelf.of_same h.bytes

theorem Alike.setAllocator (h : Alike capacity base i s s') (a : FixedPoolAllocator)
    {m m' : Memory} (hsame : m.Same m' base (base + Job.size * capacity)) :
    Alike capacity base i (s.1.setAllocator i a, m) (s'.1.setAllocator i a, m') where
  self_eq := h.self_eq
  allocators_lt := by simpa using h.allocators_lt
  freeLists_lt := h.freeLists_lt
  allocator_eq := by
    rw [allocator_setAllocator h.allocators_lt.2, allocator_setAllocator h.allocators_lt.1]
  freeList_eq := h.freeList_eq
  bytes := hsame

theorem Alike.setFreeList (h : Alike capacity base i s s') (fl : FreeList) :
    Alike capacity base i (s.1.setFreeList i fl, s.2) (s'.1.setFreeList i fl, s'.2) where
  self_eq := h.self_eq
  allocators_lt := h.allocators_lt
  freeLists_lt := by simpa using h.freeLists_lt
  allocator_eq := h.allocator_eq
  freeList_eq := by
    rw [freeList_setFreeList h.freeLists_lt.2, freeList_setFreeList h.freeLists_lt.1]
  bytes := h.bytes

theorem Alike.freeAll (h : Alike capacity base i s s') :
    ∃ pool' m', s'.1.freeAllThisThread s'.2 i =
        (pool', m', (s.1.freeAllThisThread s.2 i).2.2) ∧
      Alike capacity base i
        ((s.1.freeAllThisThread s.2 i).1, (s.1.freeAllThisThread s.2 i).2.1) (pool', m') := by
  obtain ⟨m', hdrain, hsame⟩ :=
    drain_congr h.bytes (s.1.freeList i).next (s.1.allocator i) (s.1.freeList i)
  refine ⟨_, m', ?_, (h.setAllocator _ hsame).setFreeList _⟩
  simp only [freeAllThisThread, h.allocator_eq, h.freeList_eq, hdrain]

/-- The new job is written alike. -/
theorem Alike.place (h : Alike capacity base i s s') (a : FixedPoolAllocator) (c : ℕ)
    (function : List UInt8) :
    Alike capacity base i
      (s.1.setAllocator i a, construct s.2 c (s.1.setAllocator i a).self i function)
      (s'.1.setAllocator i a, construct s'.2 c (s'.1.setAllocator i a).self i function) := by
  refine h.setAllocator a ?_
  rw [setAllocator_self, setAllocator_self, h.self_eq]
  exact construct_congr h.bytes function

theorem Alike.allocateJob (h : Alike capacity base i s s') (hbase : base ≠ nullptr)
    (hfits : base + Job.size * capacity < 256 ^ 8)
    (hshelf : ShelfOf capacity base i s.1 s.2 cs live) (function : List UInt8) :
    ∃ pool' m', s'.1.allocateJob s'.2 i function =
        ((s.1.allocateJob s.2 i function).1, pool', m', (s.1.allocateJob s.2 i function).2.2.2) ∧
      Alike capacity base i ((s.1.allocateJob s.2 i function).2.1,
        (s.1.allocateJob s.2 i function).2.2.1) (pool', m') := by
  by_cases hfull : (s.1.allocator i).blocksInitialized = (s.1.allocator i).maxBlocks
  · -- the free lists are taken back first
    have hfull' : (s'.1.allocator i).blocksInitialized = (s'.1.allocator i).maxBlocks := by
      rwa [h.allocator_eq]
    obtain ⟨pool₁, m₁, calls, hcall, -, hshelf₁, -⟩ :=
      freeAllThisThread_spec hbase hfits h.allocators_lt.1 h.freeLists_lt.1 hshelf
    obtain ⟨pool₁', m₁', hcall', h₁⟩ := h.freeAll
    rw [hcall] at hcall' h₁
    have halloc : (pool₁'.allocator i).allocate m₁' = (pool₁.allocator i).allocate m₁ := by
      rw [h₁.allocator_eq]
      exact allocate_congr hshelf₁.chain h₁.bytes
    simp only [JobPool.allocateJob, if_pos hfull, if_pos hfull', hcall, hcall', halloc]
    split
    · exact ⟨_, _, rfl, h₁.setAllocator _ h₁.bytes⟩
    · exact ⟨_, _, rfl, h₁.place _ _ _⟩
  · have hfull' : (s'.1.allocator i).blocksInitialized ≠ (s'.1.allocator i).maxBlocks := by
      rwa [h.allocator_eq]
    have halloc : (s'.1.allocator i).allocate s'.2 = (s.1.allocator i).allocate s.2 := by
      rw [h.allocator_eq]
      exact allocate_congr hshelf.chain h.bytes
    simp only [JobPool.allocateJob, if_neg hfull, if_neg hfull', halloc]
    split
    · exact ⟨_, _, rfl, h.setAllocator _ h.bytes⟩
    · exact ⟨_, _, rfl, h.place _ _ _⟩

/-- A job that is freed carries the index of its thread. -/
theorem Alike.freeJob (h : Alike capacity base i s s')
    (hshelf : ShelfOf capacity base i s.1 s.2 cs live) {job : ℕ} (hjob : job ∈ live) :
    Alike capacity base i (s.1.freeJob s.2 job, s.2) (s'.1.freeJob s'.2 job, s'.2) := by
  have htag : Job.workerAlloc s.2 job = i := hshelf.tagged job (List.mem_append_right _ hjob)
  have htag' : Job.workerAlloc s'.2 job = i :=
    (h.shelf hshelf).tagged job (List.mem_append_right _ hjob)
  simp only [JobPool.freeJob, htag, htag', h.freeList_eq]
  exact h.setFreeList _

/-- A call of another thread leaves this one's members and bytes alone. -/
theorem Alike.of_other {t : JobPool × Memory} {j : ℕ} (h : Alike capacity base i s s')
    (hji : i ≠ j) (honly : OnlyThread j s.1 t.1)
    (hsame : s.2.Same t.2 base (base + Job.size * capacity)) : Alike capacity base i t s' where
  self_eq := h.self_eq.trans honly.self_eq.symm
  allocators_lt := by
    rw [honly.allocators_length]
    exact h.allocators_lt
  freeLists_lt := by
    rw [honly.freeLists_length]
    exact h.freeLists_lt
  allocator_eq := h.allocator_eq.trans (honly.other i hji).1.symm
  freeList_eq := h.freeList_eq.trans (honly.other i hji).2.symm
  bytes x hlo hhi := (h.bytes x hlo hhi).trans (hsame x hlo hhi).symm

end Own

section Steps
variable {capacity : ℕ} {bases : List ℕ} {live : ℕ → List ℕ} {pool : JobPool} {m : Memory}
variable {i j job : ℕ} {call : Call}

/-- An allocation of a thread leaves the members of the others and the bytes outside its array
as they were. -/
theorem Inv.allocateJob_only (h : Inv capacity bases pool m live)
    (hplace : Placement capacity bases) (hj : j < bases.length) {function : List UInt8}
    (hfn : function.length ≤ Job.functionRoom) :
    ∃ result pool' m' calls, pool.allocateJob m j function = (result, pool', m', calls) ∧
      OnlyThread j pool pool' ∧
      ∀ lo hi, hi ≤ bases[j] ∨ bases[j] + Job.size * capacity ≤ lo → m.Same m' lo hi := by
  have hself := h.self_lt
  have hcount := hplace.count_lt
  have hfits := hplace.fits _ (List.getElem_mem hj)
  obtain ⟨cs, hshelf⟩ := h.shelf j hj
  obtain ⟨result, pool', m', calls, hcall, honly, -, hcases⟩ :=
    allocateJob_spec (by omega) (by omega) (hplace.nonnull _ (List.getElem_mem hj)) (by omega)
      (by rw [h.allocators_length]; exact hj) (by rw [h.freeLists_length]; exact hj) hfn hshelf
  refine ⟨result, pool', m', calls, hcall, honly, fun lo hi hout => ?_⟩
  rcases hcases with ⟨-, -, -, -, rfl⟩ | ⟨c, cs', m₁, -, -, rfl, hshelf', -, hsame⟩
  · exact .refl _ _ _
  · have hc := blocks_bounds (hshelf'.mem_blocks (p := c) (by simp))
    exact .trans (hsame lo hi (h.entries_outside hj hout)) (construct_same hfn (by omega))

theorem Inv.freeAll_only (h : Inv capacity bases pool m live) (hplace : Placement capacity bases)
    (hj : j < bases.length) :
    ∃ pool' m' calls, pool.freeAllThisThread m j = (pool', m', calls) ∧
      OnlyThread j pool pool' ∧
      ∀ lo hi, hi ≤ bases[j] ∨ bases[j] + Job.size * capacity ≤ lo → m.Same m' lo hi := by
  have hfits := hplace.fits _ (List.getElem_mem hj)
  obtain ⟨cs, hshelf⟩ := h.shelf j hj
  obtain ⟨pool', m', calls, hcall, honly, -, -, -, hsame⟩ :=
    freeAllThisThread_spec (hplace.nonnull _ (List.getElem_mem hj)) (by omega)
      (by rw [h.allocators_length]; exact hj) (by rw [h.freeLists_length]; exact hj) hshelf
  exact ⟨pool', m', calls, hcall, honly, fun lo hi hout => hsame lo hi (h.entries_outside hj hout)⟩

/-- The thread of a live job is the one in whose array it lies. -/
theorem Inv.thread_of_block (h : Inv capacity bases pool m live) (hplace : Placement capacity bases)
    (hi : i < bases.length) (hjob : job ∈ live j) :
    job ∈ blocks bases[i] Job.size capacity ↔ j = i := by
  have hj := h.lt_of_mem hjob
  constructor
  · intro hblock
    by_contra hne
    have := hplace.blocks_apart hj hi (h.mem_blocks hj hjob) hblock (Or.inl hne)
    unfold Job.size at this
    omega
  · rintro rfl
    exact h.mem_blocks hj hjob

theorem Inv.consistent (h : Inv capacity bases pool m live) (hplace : Placement capacity bases)
    (hi : i < bases.length) (hcall : call.concerns capacity bases[i] i = true)
    (hfree : ∀ job, call = .free job → ∃ j, job ∈ live j) :
    Stepper.Consistent step (Alike capacity bases[i] i) (pool, m) call := by
  have hbase := hplace.nonnull _ (List.getElem_mem hi)
  have hfits := hplace.fits _ (List.getElem_mem hi)
  obtain ⟨cs, hshelf⟩ := h.shelf i hi
  rintro ⟨pool', m'⟩ t es halike hstep
  cases call with
  | allocate j function =>
    obtain rfl : j = i := of_decide_eq_true hcall
    obtain ⟨pool₁', m₁', heq, hnext⟩ := halike.allocateJob hbase (by omega) hshelf function
    rcases hresult : pool.allocateJob m j function with ⟨result, pool₁, m₁, calls⟩
    rw [hresult] at heq hnext
    simp only [JobPool.step, hresult] at hstep
    cases hstep
    exact ⟨(pool₁', m₁'), by simp only [JobPool.step, heq], hnext⟩
  | free job =>
    cases hstep
    obtain ⟨j, hj⟩ := hfree job rfl
    obtain rfl := (h.thread_of_block hplace hi hj).mp (of_decide_eq_true hcall)
    exact ⟨_, rfl, halike.freeJob hshelf hj⟩
  | freeAll j =>
    obtain rfl : j = i := of_decide_eq_true hcall
    obtain ⟨pool₁', m₁', heq, hnext⟩ := halike.freeAll
    rcases hresult : pool.freeAllThisThread m j with ⟨pool₁, m₁, calls⟩
    rw [hresult] at heq hnext
    simp only [JobPool.step, hresult] at hstep
    cases hstep
    exact ⟨(pool₁', m₁'), by simp only [JobPool.step, heq], hnext⟩

theorem answers_recycledAll {calls : List (ℕ × Option Error)} {e : Event}
    (he : e ∈ recycledAll calls) : e.answers i = false := by
  obtain ⟨call, -, rfl⟩ := List.mem_map.mp he
  rfl

theorem Inv.unseen (h : Inv capacity bases pool m live) (hplace : Placement capacity bases)
    (hi : i < bases.length) (hcall : call.concerns capacity bases[i] i = false)
    (hallocate : ∀ j function, call = .allocate j function →
      j < bases.length ∧ function.length ≤ Job.functionRoom)
    (hfreeAll : ∀ j, call = .freeAll j → j < bases.length)
    (hfree : ∀ job, call = .free job → ∃ j, job ∈ live j) :
    Stepper.Unseen step (Alike capacity bases[i] i) (Event.answers i) (pool, m) call := by
  rintro ⟨pool', m'⟩ t es halike hstep
  cases call with
  | allocate j function =>
    have hji : i ≠ j := Ne.symm (of_decide_eq_false hcall)
    obtain ⟨hj, hfn⟩ := hallocate j function rfl
    obtain ⟨result, pool₁, m₁, calls, heq, honly, hsame⟩ := h.allocateJob_only hplace hj hfn
    simp only [JobPool.step, heq] at hstep
    cases hstep
    refine ⟨halike.of_other hji honly (hsame _ _ (hplace.apart hi hj hji)), fun e he => ?_⟩
    rcases List.mem_append.mp he with he | he
    · exact answers_recycledAll he
    · rw [List.mem_singleton.mp he]
      cases result <;> simp [Event.answers, hji.symm]
  | free job =>
    cases hstep
    obtain ⟨j, hj⟩ := hfree job rfl
    have hji : i ≠ j := fun heq =>
      of_decide_eq_false hcall ((h.thread_of_block hplace hi hj).mpr heq.symm)
    have hlt := h.lt_of_mem hj
    obtain ⟨cs, hshelf⟩ := h.shelf j hlt
    have honly : OnlyThread j pool (pool.freeJob m job) :=
      (freeJob_spec (by rw [h.freeLists_length]; exact hlt) hshelf hj).1
    refine ⟨halike.of_other hji honly (.refl _ _ _), fun e he => ?_⟩
    rw [List.mem_singleton.mp he]
    rfl
  | freeAll j =>
    have hji : i ≠ j := Ne.symm (of_decide_eq_false hcall)
    have hj := hfreeAll j rfl
    obtain ⟨pool₁, m₁, calls, heq, honly, hsame⟩ := h.freeAll_only hplace hj
    simp only [JobPool.step, heq] at hstep
    cases hstep
    exact ⟨halike.of_other hji honly (hsame _ _ (hplace.apart hi hj hji)),
      fun e he => answers_recycledAll he⟩

end Steps

section Runs
variable {capacity : ℕ} {bases : List ℕ} {i : ℕ}

theorem alike_create (self : ℕ) (hplace : Placement capacity bases) (m : Memory)
    (hi : i < bases.length) :
    Alike capacity bases[i] i (create self capacity bases m) (create self capacity bases m) := by
  have hallocators : (create self capacity bases m).1.allocators.length = bases.length :=
    (createAllocators_spec hplace m).1
  have hfreeLists : (create self capacity bases m).1.freeLists.length = bases.length :=
    List.length_replicate
  exact ⟨rfl, by omega, by omega, rfl, rfl, .refl _ _ _⟩

/-- Without the calls of the other threads, but with their frees of its jobs, a thread gets the
same answers, and leaves its members and the bytes of its array the same. -/
theorem alone_of_exec (capacity : ℕ) (bases : List ℕ) (hplace : Placement capacity bases)
    (self : ℕ) (hself : self < 2 ^ 64) (m₀ : Memory) (calls : List Call)
    (husage : BlockUsage capacity bases self m₀ calls) (pool : JobPool) (m : Memory)
    (es : List Event) (h : step.exec (create self capacity bases m₀) calls = some ((pool, m), es))
    (i : ℕ) (hi : i < bases.length) :
    ∃ pool' m' es',
      step.exec (create self capacity bases m₀)
          (calls.filter (Call.concerns capacity bases[i] i)) = some ((pool', m'), es') ∧
        es'.filter (Event.answers i) = es.filter (Event.answers i) ∧
        pool'.allocator i = pool.allocator i ∧ pool'.freeList i = pool.freeList i ∧
        m.Same m' bases[i] (bases[i] + Job.size * capacity) := by
  have hinv : ∀ pre call, pre ++ [call] <+: calls → ∀ s fs,
      step.exec (create self capacity bases m₀) pre = some (s, fs) →
        Inv capacity bases s.1 s.2 (liveJobs fs) := fun pre call hl s fs hexec =>
    (inv_of_block_exec hplace hself husage ((List.prefix_append pre [call]).trans hl) hexec).1
  have hmem : ∀ {pre : List Call} {call : Call}, pre ++ [call] <+: calls → call ∈ calls :=
    fun hl => hl.subset (List.mem_append_right _ (List.mem_singleton_self _))
  obtain ⟨⟨pool', m'⟩, es', hexec, hanswers, halike⟩ := Stepper.exec_filter
    (alike_create self hplace m₀ hi)
    (fun pre call hl s fs hexec hcall => (hinv pre call hl s fs hexec).consistent hplace hi hcall
      fun job heq => husage.frees pre job (heq ▸ hl) s fs hexec)
    (fun pre call hl s fs hexec hcall => (hinv pre call hl s fs hexec).unseen hplace hi hcall
      (fun j function heq => husage.allocates j function (heq ▸ hmem hl))
      (fun j heq => husage.freeAlls j (heq ▸ hmem hl))
      fun job heq => husage.frees pre job (heq ▸ hl) s fs hexec)
    List.prefix_rfl h
  exact ⟨pool', m', es', hexec, hanswers, halike.allocator_eq, halike.freeList_eq, halike.bytes⟩

/-- Two threads with one block each. The second one's calls make no difference to the first. -/
theorem alone_of_exec_pair :
    ∃ pool m es pool' m' es',
      step.exec (create 16 1 [1024, 2048] fun _ => 0)
          [.allocate 0 [1], .allocate 1 [2], .free 1024, .freeAll 1, .allocate 0 [3]] =
        some ((pool, m), es) ∧
      step.exec (create 16 1 [1024, 2048] fun _ => 0)
          [.allocate 0 [1], .free 1024, .allocate 0 [3]] = some ((pool', m'), es') ∧
      es'.filter (Event.answers 0) = es.filter (Event.answers 0) ∧
      pool'.allocator 0 = pool.allocator 0 ∧ pool'.freeList 0 = pool.freeList 0 ∧
      m.Same m' 1024 (1024 + Job.size * 1) := by
  have hplace : Placement 1 [1024, 2048] := ⟨by decide, by decide, by decide, by decide⟩
  have husage : BlockUsage 1 [1024, 2048] 16 (fun _ => 0)
      [.allocate 0 [1], .allocate 1 [2], .free 1024, .freeAll 1, .allocate 0 [3]] := by
    refine ⟨fun i function hmem => ?_, fun i hmem => ?_, fun pre job hpre s es h => ?_⟩
    · simp only [List.mem_cons, Call.allocate.injEq, reduceCtorEq, List.not_mem_nil, false_or,
        or_false] at hmem
      rcases hmem with ⟨rfl, rfl⟩ | ⟨rfl, rfl⟩ | ⟨rfl, rfl⟩ <;> decide
    · simp only [List.mem_cons, Call.freeAll.injEq, reduceCtorEq, List.not_mem_nil, false_or,
        or_false] at hmem
      subst hmem
      decide
    · obtain ⟨n, hn, rfl, hcall⟩ := concat_prefix_iff.mp hpre
      have hn : n < 5 := hn
      interval_cases n <;> cases hcall
      cases h
      exact ⟨0, by decide +kernel⟩
  obtain ⟨pool', m', es', hexec, hsame⟩ := alone_of_exec 1 [1024, 2048] hplace 16 (by decide)
    (fun _ => 0) _ husage _ _ _ rfl 0 (by decide)
  exact ⟨_, _, _, pool', m', es', rfl, hexec, hsame⟩

end Runs

end Jobrocket.JobPool
