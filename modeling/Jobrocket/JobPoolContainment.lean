import Jobrocket.JobPoolRuns

/-! # The bytes that an allocation writes

The callable is placed into the buffer of the new job whatever its size, and the buffer lies
in front of the end of the block by a few bytes of padding. A larger callable runs into the
block behind, or past the end of the thread's array.
-/
namespace Jobrocket.JobPool
open Library Memory FixedPoolAllocator

/-- The bytes after the free list has been taken back, if the allocator was full. -/
def recycledMemory (pool : JobPool) (m : Memory) (i : ℕ) : Memory :=
  if (pool.allocator i).blocksInitialized = (pool.allocator i).maxBlocks then
    (pool.freeAllThisThread m i).2.1
  else m

/-- Once the free list has been taken back, an allocation that returns `p` writes to no byte
outside that block. Taking the list back writes to the first words of its entries only, so
that every live job, every link in another block and everything outside the pool are as
they were. -/
structure Contained (capacity : ℕ) (bases : List ℕ) (pool : JobPool) (m : Memory)
    (live : ℕ → List ℕ) (i p : ℕ) (m' : Memory) : Prop where
  block : ∀ x, x < p ∨ p + Job.size ≤ x → m' x = pool.recycledMemory m i x
  recycling : ∀ x, (∀ e ∈ (pool.freeList i).entries, x < e ∨ e + 8 ≤ x) →
    pool.recycledMemory m i x = m x
  jobs : ∀ j, ∀ q ∈ live j, m.Same m' q (q + Job.size)
  links : ∀ j (hj : j < bases.length), ∀ c ∈ blocks bases[j] Job.size capacity, c ≠ p →
    (pool.recycledMemory m i).Same m' c (c + 8)
  outside : ∀ x, (∀ b ∈ bases, x < b ∨ b + Job.size * capacity ≤ x) → m' x = m x

section Bytes
variable {pool pool' : JobPool} {m m' : Memory} {i p self : ℕ} {function : List UInt8}
  {done : List (ℕ × Option Error)}

theorem allocateJob_memory (h : pool.allocateJob m i function = (.ok p, pool', m', done)) :
    m' = construct (pool.recycledMemory m i) p pool.self i function := by
  by_cases hfull : (pool.allocator i).blocksInitialized = (pool.allocator i).maxBlocks
  · simp only [allocateJob, if_pos hfull] at h
    rw [recycledMemory, if_pos hfull]
    split at h
    · cases h
    · cases h
      rfl
  · simp only [allocateJob, if_neg hfull] at h
    rw [recycledMemory, if_neg hfull]
    split at h
    · cases h
    · cases h
      rfl

/-- The fields lie in front of the buffer, so the callable's bytes are the last ones written. -/
theorem construct_function {k : ℕ} (hk : k < function.length) :
    construct m p self i function (p + 28 + k) = function[k] := by
  have hfields : (Job.setFunction m p function).Same (construct m p self i function) (p + 28)
      (p + 28 + k + 1) := by
    unfold construct Job.setGroupCounter Job.setState Job.setWorkerAlloc Job.setSourcePool
    refine .trans (.trans (.trans (same_store ?_) (same_store ?_)) (same_store ?_)) (same_store ?_)
      <;> omega
  rw [hfields _ (by omega) (Nat.lt_succ_self _), Job.setFunction, storeBytes,
    if_pos (Nat.le_add_right _ _), Nat.add_sub_cancel_left, List.getElem?_eq_getElem hk,
    Option.getD_some]

end Bytes

section Allocation
variable {capacity : ℕ} {bases : List ℕ} {pool pool' : JobPool} {m m' : Memory}
  {live : ℕ → List ℕ} {i p : ℕ} {function : List UInt8} {done : List (ℕ × Option Error)}

theorem Inv.recycledMemory_eq (h : Inv capacity bases pool m live)
    (hplace : Placement capacity bases) (hi : i < bases.length) {x : ℕ}
    (hx : ∀ e ∈ (pool.freeList i).entries, x < e ∨ e + 8 ≤ x) :
    pool.recycledMemory m i x = m x := by
  rw [recycledMemory]
  split
  · have hfits := hplace.fits _ (List.getElem_mem hi)
    obtain ⟨cs, hshelf⟩ := h.shelf i hi
    obtain ⟨pool₁, m₁, calls, hcall, -, -, -, -, hsame⟩ :=
      freeAllThisThread_spec (hplace.nonnull _ (List.getElem_mem hi)) (by omega)
        (by rw [h.allocators_length]; exact hi) (by rw [h.freeLists_length]; exact hi) hshelf
    rw [hcall]
    exact hsame x (x + 1) (fun e he => (hx e he).imp_left Nat.succ_le_of_lt) x le_rfl
      (Nat.lt_succ_self x)
  · rfl

theorem Inv.allocated_block (h : Inv capacity bases pool m live)
    (hplace : Placement capacity bases) (hi : i < bases.length)
    (halloc : (pool.allocateJob m i function).1 = .ok p) :
    p ∈ blocks bases[i] Job.size capacity ∧ p ∉ live i := by
  have hfits : ([] : List UInt8).length ≤ Job.functionRoom := Nat.zero_le _
  obtain ⟨result, pool₁, m₁, calls, hcall, -, -, hcases⟩ := h.allocateJob hplace hi hfits
  have hresult : result = .ok p := by
    have hsame : (pool.allocateJob m i []).1 = .ok p := pool.allocateJob_result_eq.trans halloc
    rwa [hcall] at hsame
  rcases hcases with ⟨hres, -⟩ | ⟨c, m₂, hres, -, hc, hnew, -⟩
  · rw [hresult] at hres
    cases hres
  · rw [hresult] at hres
    cases hres
    exact ⟨hc, hnew⟩

theorem Inv.contained (h : Inv capacity bases pool m live) (hplace : Placement capacity bases)
    (hi : i < bases.length) (hfn : function.length ≤ Job.functionRoom)
    (halloc : pool.allocateJob m i function = (.ok p, pool', m', done)) :
    Contained capacity bases pool m live i p m' := by
  obtain ⟨hp, hnew⟩ := h.allocated_block hplace hi (congrArg Prod.fst halloc)
  have hmem := allocateJob_memory halloc
  have hblock : ∀ x, x < p ∨ p + Job.size ≤ x → m' x = pool.recycledMemory m i x := by
    intro x hx
    rw [hmem]
    exact construct_same hfn (hx.imp_left Nat.succ_le_of_lt) x le_rfl (Nat.lt_succ_self x)
  have hrecycling : ∀ x, (∀ e ∈ (pool.freeList i).entries, x < e ∨ e + 8 ≤ x) →
      pool.recycledMemory m i x = m x := fun x hx => h.recycledMemory_eq hplace hi hx
  refine ⟨hblock, hrecycling, ?_, ?_, ?_⟩
  · intro j q hq x hlo hhi
    have hapart := h.apart_live hplace hi hp hnew hq
    rw [hblock x (by omega), hrecycling x fun e he => ?_]
    have hentry := h.apart_live hplace hi (h.entries_mem_blocks hi he) (h.entries_not_live hi he) hq
    unfold Job.size at *
    omega
  · intro j hj c hc hne x hlo hhi
    have hapart := hplace.blocks_apart hj hi hc hp (Or.inr hne)
    exact hblock x (by unfold Job.size at *; omega)
  · intro x hx
    have hbase := hx _ (List.getElem_mem hi)
    have hbounds := blocks_bounds hp
    rw [hblock x (by omega), hrecycling x fun e he => ?_]
    have hentry := h.entries_bounds hi he
    unfold Job.size at *
    omega

end Allocation

section Runs

theorem succ_ne_self (b : UInt8) : b + 1 ≠ b := by
  intro h
  have hnat := congrArg UInt8.toNat h
  rw [UInt8.toNat_add, UInt8.toNat_one] at hnat
  omega

/-- A callable that is larger than the rest of the block is not contained, whatever the block
behind it holds: one of its bytes can be chosen to differ from what is there. -/
theorem exists_not_contained (capacity : ℕ) (bases : List ℕ) (live : ℕ → List ℕ) {pool : JobPool}
    {m : Memory} {i p n : ℕ} {function₀ : List UInt8} (hn : Job.functionRoom < n)
    (hsome : (pool.allocateJob m i function₀).1 = .ok p) :
    ∃ function pool' m' done, function.length = n ∧
      pool.allocateJob m i function = (.ok p, pool', m', done) ∧
      ¬ Contained capacity bases pool m live i p m' := by
  have hlen : 44 < n := hn
  let function : List UInt8 := List.replicate n (pool.recycledMemory m i (p + Job.size) + 1)
  have hresult : (pool.allocateJob m i function).1 = .ok p :=
    pool.allocateJob_result_eq.trans hsome
  have halloc : pool.allocateJob m i function = (.ok p, (pool.allocateJob m i function).2) :=
    Prod.ext hresult rfl
  refine ⟨function, _, _, _, List.length_replicate, halloc, fun hcontained => ?_⟩
  have hkept := hcontained.block (p + Job.size) (Or.inr le_rfl)
  have hlong : 44 < function.length := by rwa [List.length_replicate]
  have hwritten : construct (pool.recycledMemory m i) p pool.self i function (p + 28 + 44) =
      function[44] := construct_function hlong
  rw [allocateJob_memory halloc] at hkept
  have haddr : p + Job.size = p + 28 + 44 := by unfold Job.size; omega
  rw [haddr, hwritten, List.getElem_replicate, haddr] at hkept
  exact succ_ne_self _ hkept

/-- An allocation stays in its block exactly when the callable is no larger than the block's
rest. -/
theorem contained_iff (capacity : ℕ) (bases : List ℕ) (hplace : Placement capacity bases)
    (self : ℕ) (hself : self < 2 ^ 64) (m₀ : Memory) (calls : List Call)
    (husage : BlockUsage capacity bases self m₀ calls) (pool : JobPool) (m : Memory)
    (es : List Event)
    (h : step.exec (create self capacity bases m₀) calls = some ((pool, m), es))
    (i : ℕ) (hi : i < bases.length) (function₀ : List UInt8) (p : ℕ)
    (hsome : (pool.allocateJob m i function₀).1 = .ok p) (n : ℕ) :
    (∀ function, function.length = n → ∀ pool' m' done,
      pool.allocateJob m i function = (.ok p, pool', m', done) →
        Contained capacity bases pool m (liveJobs es) i p m') ↔ n ≤ Job.functionRoom := by
  obtain ⟨hinv, -⟩ := inv_of_block_exec hplace hself husage List.prefix_rfl h
  constructor
  · intro hall
    by_contra hn
    obtain ⟨function, pool', m', done, hlen, halloc, hnot⟩ :=
      exists_not_contained capacity bases (liveJobs es) (not_le.mp hn) hsome
    exact hnot (hall function hlen pool' m' done halloc)
  · rintro hn function rfl pool' m' done halloc
    exact hinv.contained hplace hi hn halloc

end Runs

section Small

abbrev freedFirst : List Call := [.allocate 0 [1], .allocate 0 [2], .free 1024]

theorem freedFirst_usage : BlockUsage 2 [1024] 16 (fun _ => 0) freedFirst := by
  refine ⟨fun i function hmem => ?_, by simp, fun pre job hpre s es h => ?_⟩
  · simp only [List.mem_cons, Call.allocate.injEq, reduceCtorEq, List.not_mem_nil, or_false] at hmem
    rcases hmem with ⟨rfl, rfl⟩ | ⟨rfl, rfl⟩ <;> decide
  · obtain ⟨n, hn, rfl, hcall⟩ := concat_prefix_iff.mp hpre
    have hn : n < 3 := hn
    interval_cases n <;> cases hcall
    cases h
    exact ⟨0, by decide +kernel⟩

theorem freedFirst_placement : Placement 2 [1024] :=
  ⟨by decide, by decide, by decide, by decide⟩

theorem contained_iff_room : ∃ pool m es,
    step.exec (create 16 2 [1024] fun _ => 0) freedFirst = some ((pool, m), es) ∧
      ∀ function, function.length = 44 → ∀ pool' m' done,
        pool.allocateJob m 0 function = (.ok 1024, pool', m', done) →
          Contained 2 [1024] pool m (liveJobs es) 0 1024 m' := by
  refine ⟨_, _, _, rfl, ?_⟩
  exact (contained_iff 2 [1024] freedFirst_placement 16 (by decide) (fun _ => 0) freedFirst
    freedFirst_usage _ _ _ rfl 0 (by decide) [] 1024 (by decide +kernel) 44).mpr (by decide)

/-- A callable of 48 bytes overwrites the source pool of the live job behind its block. -/
theorem large_not_contained : ∃ pool m es,
    step.exec (create 16 2 [1024] fun _ => 0) freedFirst = some ((pool, m), es) ∧
      1096 ∈ liveJobs es 0 ∧ Job.sourcePool m 1096 = 16 ∧
      ∃ pool' m' done, pool.allocateJob m 0 (List.replicate 48 255) = (.ok 1024, pool', m', done) ∧
        Job.sourcePool m' 1096 = 0xffffffff ∧
        ¬ Contained 2 [1024] pool m (liveJobs es) 0 1024 m' := by
  refine ⟨_, _, _, rfl, by decide +kernel, by decide +kernel, _, _, _, rfl, by decide +kernel,
    fun h => ?_⟩
  have hsame := Job.sourcePool_of_same (h.jobs 0 1096 (by decide +kernel))
  exact absurd hsame (by decide +kernel)

end Small

end Jobrocket.JobPool
