import Jobrocket.JobPoolHoldings

/-! # A pool that is reset

The loop of `reset` turns once for every thread and gives the blocks of the first thread back in
each turn. The other threads are as they were, so the pool is a new one again exactly if
they had never been touched, or had come back to the state of a new pool by themselves.
-/
namespace Jobrocket.JobPool
open Library Memory FixedPoolAllocator

/-- A thread's part of the pool is what the constructor makes of it. -/
structure AsNew (capacity base : ℕ) (a : FixedPoolAllocator) (fl : FreeList) (m : Memory) :
    Prop where
  none_allocated : a.blocksInitialized = 0
  none_freed : fl.empty = true
  linked : Linked m a.next (blocks base Job.size capacity)

/-- No thread holds a block, and from here on the threads are given what those of a new pool
are given. -/
structure Restored (capacity : ℕ) (bases : List ℕ) (addr : ℕ) (s : JobPool × Memory) : Prop where
  none_allocated : ∀ i < bases.length, (s.1.allocator i).blocksInitialized = 0
  none_freed : ∀ i < bases.length, (s.1.freeList i).empty = true
  given_eq : ∀ m₁ later, BlockUsage capacity bases addr m₁ later →
    (step.exec s later).map (fun r => given r.2) =
      (step.exec (create addr capacity bases m₁) later).map fun r => given r.2

section NumThreads
variable {pool : JobPool} {m : Memory}

theorem freeAllThisThread_numThreads (i : ℕ) :
    (pool.freeAllThisThread m i).1.numThreads = pool.numThreads := rfl

theorem allocateJob_numThreads (i : ℕ) (function : List UInt8) :
    (pool.allocateJob m i function).2.1.numThreads = pool.numThreads := by
  rw [allocateJob]
  dsimp only
  split
  · split <;> rfl
  · split <;> rfl

theorem step_numThreads {s s' : JobPool × Memory} {call : Call} {es : List Event}
    (h : step s call = some (s', es)) : s'.1.numThreads = s.1.numThreads := by
  cases call with
  | allocate i function =>
    cases h
    exact allocateJob_numThreads i function
  | free job =>
    cases h
    rfl
  | freeAll i =>
    cases h
    exact freeAllThisThread_numThreads i

theorem exec_numThreads {s s' : JobPool × Memory} {calls : List Call} {es : List Event}
    (h : step.exec s calls = some (s', es)) : s'.1.numThreads = s.1.numThreads := by
  refine Stepper.exec_induction (I := fun _ t _ => t.1.numThreads = s.1.numThreads) rfl ?_
    List.prefix_rfl h
  intro pre call t es' t' fs _ _ ih hstep
  exact (step_numThreads hstep).trans ih

end NumThreads

section Turns
variable {capacity : ℕ} {bases : List ℕ} {pool : JobPool} {m : Memory} {A : ℕ → Holding}

/-- The lists with those of the first thread as in a new pool. -/
def firstFull (capacity : ℕ) (bases : List ℕ) (A : ℕ → Holding) : ℕ → Holding :=
  Function.update A 0 (fullHoldings capacity bases 0)

theorem firstFull_idem :
    firstFull capacity bases (firstFull capacity bases A) = firstFull capacity bases A :=
  Function.update_idem ..

theorem firstFull_of_ne {i : ℕ} (hi : i ≠ 0) : firstFull capacity bases A i = A i :=
  Function.update_of_ne hi _ _

/-- Only the lists of the pool's own threads matter. -/
theorem Models.congr {B : ℕ → Holding} (h : Models capacity bases pool m A)
    (heq : ∀ i < bases.length, B i = A i) (hlive : ∀ i, bases.length ≤ i → (B i).live = []) :
    Models capacity bases pool m B := by
  refine { h with shelf := fun i hi => ?_, entries := fun i hi => ?_, live_nil := hlive }
  · rw [heq i hi]
    exact h.shelf i hi
  · rw [heq i hi]
    exact h.entries i hi

theorem Models.resetTurn (h : Models capacity bases pool m A) (hplace : Placement capacity bases)
    (hpos : 0 < bases.length) :
    ∃ pool' m', (∀ turns, resetLoop (turns + 1) pool m = resetLoop turns pool' m') ∧
      OnlyThread 0 pool pool' ∧ Models capacity bases pool' m' (firstFull capacity bases A) := by
  have hshelf := h.shelf 0 hpos
  have hfits := hplace.fits _ (List.getElem_mem hpos)
  have hsize : 8 ≤ Job.size := by decide
  have ha : 0 < pool.allocators.length := by rwa [h.allocators_length]
  have hf : 0 < pool.freeLists.length := by rwa [h.freeLists_length]
  have hcreate : (pool.allocator 0).reset m =
      FixedPoolAllocator.create bases[0] Job.size capacity m := by
    simp only [FixedPoolAllocator.reset, FixedPoolAllocator.create, stop,
      hshelf.chain.memory_eq, hshelf.chain.blockSize_eq, hshelf.chain.maxBlocks_eq]
  let a' := (FixedPoolAllocator.create bases[0] Job.size capacity m).1
  let pool' := (pool.setFreeList 0 (pool.freeList 0).reset).setAllocator 0 a'
  have halloc : pool'.allocator 0 = a' := allocator_setAllocator ha
  have hlist : pool'.freeList 0 = (pool.freeList 0).reset := freeList_setFreeList hf
  have honly : OnlyThread 0 pool pool' :=
    ⟨rfl, setAllocator_allocators_length, setFreeList_freeLists_length,
      fun j hj => ⟨allocator_setAllocator_ne hj, freeList_setFreeList_ne hj⟩⟩
  refine ⟨pool', (FixedPoolAllocator.create bases[0] Job.size capacity m).2, fun turns => ?_,
    honly, ?_⟩
  · rw [resetLoop, allocator_setFreeList, hcreate]
  · rw [firstFull, fullHoldings_eq hpos]
    refine h.update hplace hpos honly (fun lo hi hout => create_same hsize m hout) ?_ ?_
    · rw [ShelfOf, halloc, hlist]
      constructor
      case chain => exact represents_create hsize (by omega) m
      case elements_length => exact (List.length_map _).trans hshelf.elements_length
      case next_le => exact Nat.zero_le _
      case clean => exact FreeList.clean_reset _
      case perm => simp [FreeList.entries, FreeList.reset]
      case tagged => simp [FreeList.entries, FreeList.reset]
    · rw [hlist]
      rfl

/-- Every further turn finds the first thread as the turn before it left it. -/
theorem Models.resetLoop (hplace : Placement capacity bases) (hpos : 0 < bases.length) (turns : ℕ)
    (h : Models capacity bases pool m (firstFull capacity bases A)) :
    ∃ pool' m', JobPool.resetLoop turns pool m = (pool', m') ∧ OnlyThread 0 pool pool' ∧
      Models capacity bases pool' m' (firstFull capacity bases A) := by
  induction turns generalizing pool m with
  | zero => exact ⟨pool, m, rfl, .refl 0 pool, h⟩
  | succ turns ih =>
    obtain ⟨pool₁, m₁, hturn, honly, hmodels⟩ := h.resetTurn hplace hpos
    rw [firstFull_idem] at hmodels
    obtain ⟨pool₂, m₂, hloop, honly', hmodels'⟩ := ih hmodels
    exact ⟨pool₂, m₂, (hturn turns).trans hloop, honly.trans honly', hmodels'⟩

/-- A reset is a reset of the first thread, if there is one. -/
theorem Models.reset (h : Models capacity bases pool m A) (hplace : Placement capacity bases)
    (hthreads : pool.numThreads = bases.length) :
    ∃ pool' m', pool.reset m = (pool', m') ∧ OnlyThread 0 pool pool' ∧
      Models capacity bases pool' m' (firstFull capacity bases A) := by
  rw [JobPool.reset, hthreads]
  cases hlength : bases.length with
  | zero =>
    refine ⟨pool, m, rfl, .refl 0 pool, h.congr (fun i hi => by omega) fun i _ => ?_⟩
    by_cases hi : i = 0
    · rw [hi, firstFull, Function.update_self]
      rfl
    · rw [firstFull_of_ne hi]
      exact h.live_nil i (by omega)
  | succ turns =>
    have hpos : 0 < bases.length := by omega
    obtain ⟨pool₁, m₁, hturn, honly, hmodels⟩ := h.resetTurn hplace hpos
    obtain ⟨pool₂, m₂, hloop, honly', hmodels'⟩ := hmodels.resetLoop hplace hpos turns
    exact ⟨pool₂, m₂, (hturn turns).trans hloop, honly.trans honly', hmodels'⟩

end Turns

section Threads
variable {capacity : ℕ} {bases : List ℕ} {pool : JobPool} {m : Memory} {A : ℕ → Holding} {i : ℕ}

theorem Models.full_of_asNew (h : Models capacity bases pool m A) (hi : i < bases.length)
    (hnew : AsNew capacity bases[i] (pool.allocator i) (pool.freeList i) m) :
    A i = fullHoldings capacity bases i := by
  have hshelf := h.shelf i hi
  have hlength := hshelf.length_eq
  have hcount := hshelf.chain.count_eq
  have hnone : (pool.freeList i).next = 0 := FreeList.empty_iff.mp hnew.none_freed
  rw [hnew.none_allocated] at hcount
  have hchain : (A i).chain = blocks bases[i] Job.size capacity :=
    hshelf.chain.linked.unique hnew.linked (by rw [blocks_length]; omega)
  have hfreed : (A i).freed = [] := by
    rw [← h.entries i hi, FreeList.entries, hnone, List.take_zero]
  have hlive : (A i).live = [] := List.eq_nil_of_length_eq_zero (by omega)
  calc A i = ⟨(A i).chain, (A i).freed, (A i).live⟩ := rfl
    _ = fullHoldings capacity bases i := by rw [fullHoldings_eq hi, hchain, hfreed, hlive]

theorem Models.asNew (h : Models capacity bases pool m A) (hi : i < bases.length)
    (hnone : (pool.allocator i).blocksInitialized = 0) (hempty : (pool.freeList i).empty = true)
    (hchain : (A i).chain = blocks bases[i] Job.size capacity) :
    AsNew capacity bases[i] (pool.allocator i) (pool.freeList i) m :=
  ⟨hnone, hempty, hchain ▸ (h.shelf i hi).chain.linked⟩

theorem Models.none_of_full (h : Models capacity bases pool m A) (hi : i < bases.length)
    (hfull : A i = fullHoldings capacity bases i) :
    (pool.allocator i).blocksInitialized = 0 ∧ (pool.freeList i).empty = true := by
  have hshelf := h.shelf i hi
  have hcount := hshelf.chain.count_eq
  have hlength := hshelf.length_eq
  rw [hfull, fullHoldings_eq hi] at hcount hlength
  simp only [blocks_length] at hcount hlength
  exact ⟨by omega, FreeList.empty_iff.mpr (by omega)⟩

/-- A thread that allocates as often as it has chained blocks is given the chain. -/
theorem results_allocate (chain : List ℕ) (hchain : (A i).chain = chain) :
    (holdings.results A (List.replicate chain.length (.allocate i []))).flatten =
      chain.map fun c => (i, some c) := by
  induction chain generalizing A with
  | nil => rfl
  | cons c cs ih =>
    have hcall := Holding.allocate_chain hchain
    rw [List.length_cons, List.replicate_succ, Machine.results_cons, List.flatten_cons, ih]
    · simp only [holdings, hcall, List.singleton_append, List.map_cons]
    · simp only [holdings, hcall, Function.update_self]

end Threads

section Runs
variable {capacity : ℕ} {bases : List ℕ} {self : ℕ} {m₀ : Memory}

theorem models_exec (hplace : Placement capacity bases) (hself : self < 2 ^ 64)
    {calls : List Call} (husage : BlockUsage capacity bases self m₀ calls) {pool : JobPool}
    {m : Memory} {es : List Event}
    (h : step.exec (create self capacity bases m₀) calls = some ((pool, m), es)) :
    pool.numThreads = bases.length ∧
      Models capacity bases pool m (holdings.after (fullHoldings capacity bases) calls) := by
  obtain ⟨pool', m', es', hexec, -, -, hmodels⟩ := (models_create hplace hself m₀).exec hplace
    (allowed_of_usage hplace hself husage)
  rw [h] at hexec
  cases hexec
  exact ⟨exec_numThreads h, hmodels⟩

theorem usage_allocate {i : ℕ} (hi : i < bases.length) (n : ℕ) :
    BlockUsage capacity bases self m₀ (List.replicate n (.allocate i [])) := by
  refine ⟨fun j function hmem => ?_, fun j hmem => ?_, fun pre job hpre => ?_⟩
  · cases List.eq_of_mem_replicate hmem
    exact ⟨hi, Nat.zero_le _⟩
  · cases List.eq_of_mem_replicate hmem
  · have hmem := hpre.subset (List.mem_append_right _ (List.mem_singleton_self _))
    cases List.eq_of_mem_replicate hmem

theorem Models.given_allocate {pool : JobPool} {m : Memory} {A : ℕ → Holding} {i : ℕ}
    (h : Models capacity bases pool m A) (hplace : Placement capacity bases)
    (hi : i < bases.length) :
    (JobPool.step.exec (pool, m) (List.replicate (A i).chain.length (.allocate i []))).map
      (fun r => given r.2) = some ((A i).chain.map fun c => (i, some c)) := by
  have hallowed : ∀ pre call, pre ++ [call] <+:
      List.replicate (A i).chain.length (Call.allocate i []) →
        Allowed bases.length (holdings.after A pre) call := by
    intro pre call hpre
    have hmem := hpre.subset (List.mem_append_right _ (List.mem_singleton_self _))
    cases List.eq_of_mem_replicate hmem
    exact ⟨hi, Nat.zero_le _⟩
  obtain ⟨pool', m', es, hexec, hgiven, -, -⟩ := h.exec hplace hallowed
  rw [hexec, Option.map_some, hgiven, results_allocate _ rfl]

theorem Models.restored {pool : JobPool} {m : Memory}
    (h : Models capacity bases pool m (fullHoldings capacity bases))
    (hplace : Placement capacity bases) (hself : self < 2 ^ 64) :
    Restored capacity bases self (pool, m) := by
  refine ⟨fun i hi => (h.none_of_full hi rfl).1, fun i hi => (h.none_of_full hi rfl).2,
    fun m₁ later husage => ?_⟩
  have hallowed := allowed_of_usage hplace hself husage
  obtain ⟨pool₁, m₂, es, hexec, hgiven, -, -⟩ := h.exec hplace hallowed
  obtain ⟨pool₂, m₃, fs, hexec', hgiven', -, -⟩ :=
    (models_create hplace hself m₁).exec hplace hallowed
  rw [hexec, hexec', Option.map_some, Option.map_some, hgiven, hgiven']

/-- A reset pool is a new one exactly if every thread but the first was as new before. -/
theorem restored_iff (capacity : ℕ) (bases : List ℕ) (hplace : Placement capacity bases)
    (self : ℕ) (hself : self < 2 ^ 64) (m₀ : Memory) (calls : List Call)
    (husage : BlockUsage capacity bases self m₀ calls) (pool : JobPool) (m : Memory)
    (es : List Event)
    (h : step.exec (create self capacity bases m₀) calls = some ((pool, m), es)) :
    Restored capacity bases self (pool.reset m) ↔
      ∀ i (hi : i < bases.length), i ≠ 0 →
        AsNew capacity bases[i] (pool.allocator i) (pool.freeList i) m := by
  obtain ⟨hthreads, hmodels⟩ := models_exec hplace hself husage h
  generalize holdings.after (fullHoldings capacity bases) calls = A at hmodels
  obtain ⟨pool', m', hreset, honly, hmodels'⟩ := hmodels.reset hplace hthreads
  rw [hreset]
  constructor
  · intro hrestored i hi hne
    obtain ⟨ha, hf⟩ := honly.other i hne
    have hnone := hrestored.none_allocated i hi
    have hempty := hrestored.none_freed i hi
    refine hmodels.asNew hi (ha ▸ hnone) (hf ▸ hempty) ?_
    -- allocating all its blocks shows the order of the thread's chain
    have hlength : (A i).chain.length = capacity := by
      have hcount := (hmodels.shelf i hi).chain.count_eq
      rwa [← ha, hnone, Nat.add_zero] at hcount
    have hgiven := hrestored.given_eq m _ (usage_allocate hi capacity)
    have hthread := hmodels'.given_allocate hplace hi
    have hcreate := (models_create hplace hself m).given_allocate hplace hi
    rw [firstFull_of_ne hne, hlength] at hthread
    rw [fullHoldings_eq hi, blocks_length] at hcreate
    rw [hthread, hcreate, Option.some.injEq] at hgiven
    exact List.map_injective_iff.mpr (fun c d hcd => by simpa using hcd) hgiven
  · intro hnew
    refine Models.restored (hmodels'.congr (fun i hi => ?_) fun _ _ => rfl) hplace hself
    by_cases hne : i = 0
    · rw [hne, firstFull, Function.update_self]
    · rw [firstFull_of_ne hne]
      exact (hmodels.full_of_asNew hi (hnew i hi hne)).symm

end Runs

section Small

theorem twoThreads_placement : Placement 1 [1024, 2048] :=
  ⟨by decide, by decide, by decide, by decide⟩

/-- The first thread allocates its only block; the second makes no call. -/
theorem restored_iff_firstThread : ∃ pool m es,
    step.exec (create 16 1 [1024, 2048] fun _ => 0) [.allocate 0 []] = some ((pool, m), es) ∧
      Restored 1 [1024, 2048] 16 (pool.reset m) := by
  refine ⟨_, _, _, rfl, ?_⟩
  refine (restored_iff 1 [1024, 2048] twoThreads_placement 16 (by decide) (fun _ => 0)
    [.allocate 0 []] (usage_allocate (by decide) 1) _ _ _ rfl).mpr fun i hi hne => ?_
  have hi : i < 2 := hi
  interval_cases i
  · exact absurd rfl hne
  · exact ⟨by decide +kernel, by decide +kernel, rfl, trivial⟩

/-- The second thread allocates its only block, and is refused one after the reset. -/
theorem secondThread_not_restored : ∃ pool m es,
    BlockUsage 1 [1024, 2048] 16 (fun _ => 0) [.allocate 1 []] ∧
      step.exec (create 16 1 [1024, 2048] fun _ => 0) [.allocate 1 []] = some ((pool, m), es) ∧
      ((pool.reset m).1.allocator 1).blocksInitialized = 1 ∧
      (step.exec (pool.reset m) [.allocate 1 []]).map (fun r => given r.2) = some [(1, none)] ∧
      (step.exec (create 16 1 [1024, 2048] m) [.allocate 1 []]).map (fun r => given r.2) =
        some [(1, some 2048)] ∧
      ¬ Restored 1 [1024, 2048] 16 (pool.reset m) := by
  refine ⟨_, _, _, usage_allocate (by decide) 1, rfl, by decide +kernel, by decide +kernel,
    by decide +kernel, fun h => ?_⟩
  exact absurd (h.none_allocated 1 (by decide)) (by decide +kernel)

end Small

end Jobrocket.JobPool
