import Jobrocket.JobPoolShelves

/-! # The pool's calls

A call works on the shelf of one thread. The shelves of the other threads keep their
members, and their bytes lie outside the array the call writes to.
-/
namespace Jobrocket.JobPool
open Library Memory FixedPoolAllocator

/-- What `new` gives the constructor for the threads' arrays: they are not null, they lie
in the address space and they do not overlap. -/
structure Placement (capacity : ℕ) (bases : List ℕ) : Prop where
  count_lt : bases.length < 2 ^ 32
  nonnull : ∀ b ∈ bases, b ≠ nullptr
  fits : ∀ b ∈ bases, b + Job.size * capacity < 2 ^ 64
  disjoint : bases.Pairwise fun b c =>
    b + Job.size * capacity ≤ c ∨ c + Job.size * capacity ≤ b

/-- The members of every thread but `i` are the same. -/
structure OnlyThread (i : ℕ) (pool pool' : JobPool) : Prop where
  self_eq : pool'.self = pool.self
  allocators_length : pool'.allocators.length = pool.allocators.length
  freeLists_length : pool'.freeLists.length = pool.freeLists.length
  other : ∀ j, j ≠ i → pool'.allocator j = pool.allocator j ∧ pool'.freeList j = pool.freeList j

/-- The block the next allocation of thread `i` will take, if there is one: the head of
the chain, or, when the allocator is full, the oldest entry of the free list. -/
def nextBlock (pool : JobPool) (i : ℕ) : Option ℕ :=
  if (pool.allocator i).blocksInitialized = (pool.allocator i).maxBlocks then
    (pool.freeList i).entries.head?
  else some (pool.allocator i).next

section OnlyThread
variable {i : ℕ} {pool pool' pool'' : JobPool}

theorem OnlyThread.refl (i : ℕ) (pool : JobPool) : OnlyThread i pool pool :=
  ⟨rfl, rfl, rfl, fun _ _ => ⟨rfl, rfl⟩⟩

theorem OnlyThread.trans (h : OnlyThread i pool pool') (h' : OnlyThread i pool' pool'') :
    OnlyThread i pool pool'' :=
  ⟨h'.self_eq.trans h.self_eq, h'.allocators_length.trans h.allocators_length,
    h'.freeLists_length.trans h.freeLists_length, fun j hj =>
      ⟨(h'.other j hj).1.trans (h.other j hj).1, (h'.other j hj).2.trans (h.other j hj).2⟩⟩

theorem onlyThread_setAllocator (a : FixedPoolAllocator) :
    OnlyThread i pool (pool.setAllocator i a) :=
  ⟨rfl, setAllocator_allocators_length, rfl, fun _ hj => ⟨allocator_setAllocator_ne hj, rfl⟩⟩

theorem onlyThread_setFreeList (fl : FreeList) : OnlyThread i pool (pool.setFreeList i fl) :=
  ⟨rfl, rfl, setFreeList_freeLists_length, fun _ hj => ⟨rfl, freeList_setFreeList_ne hj⟩⟩

end OnlyThread

section Result
variable {m m' : Memory} {i : ℕ} {function function' : List UInt8}

theorem drain_allocator (turns : ℕ) (a : FixedPoolAllocator) (fl : FreeList) (m m' : Memory) :
    (drain turns a fl m).1 = (drain turns a fl m').1 := by
  induction turns generalizing a fl m m' with
  | zero => rfl
  | succ turns ih =>
    by_cases hempty : fl.empty = true
    · simp only [drain, if_pos hempty]
    · simp only [drain, if_neg hempty]
      rcases a.free_cases fl.pop.1 with ⟨a', hfree⟩ | ⟨e, hfree⟩
      · rw [hfree m, hfree m']
        exact ih _ _ _ _
      · rw [hfree m, hfree m']
        exact ih _ _ _ _

theorem freeAllThisThread_allocator (pool : JobPool) (m m' : Memory) (i : ℕ) :
    (pool.freeAllThisThread m i).1.allocator i = (pool.freeAllThisThread m' i).1.allocator i := by
  change (pool.setAllocator i (drain _ _ _ m).1).allocator i =
    (pool.setAllocator i (drain _ _ _ m').1).allocator i
  rw [drain_allocator _ _ _ m m']

/-- The result is read off the allocator that is left when the free list has been emptied. -/
theorem allocateJob_result (pool : JobPool) (m : Memory) (i : ℕ) (function : List UInt8) :
    ∃ a m₁, (pool.allocateJob m i function).1 =
        (if (FixedPoolAllocator.allocate a m₁).1 = nullptr then .error exhausted
        else .ok (a.allocate m₁).1) ∧
      a = (if (pool.allocator i).blocksInitialized = (pool.allocator i).maxBlocks then
        (pool.freeAllThisThread m i).1 else pool).allocator i := by
  refine ⟨_, (if (pool.allocator i).blocksInitialized = (pool.allocator i).maxBlocks then
    (pool.freeAllThisThread m i).2.1 else m), ?_, rfl⟩
  by_cases hfull : (pool.allocator i).blocksInitialized = (pool.allocator i).maxBlocks
  · simp only [allocateJob, if_pos hfull]
    split <;> rfl
  · simp only [allocateJob, if_neg hfull]
    split <;> rfl

/-- A callable for which there is no job is not looked at. -/
theorem allocateJob_of_error {pool : JobPool} {e : Error}
    (h : (pool.allocateJob m i function).1 = .error e) (function' : List UInt8) :
    pool.allocateJob m i function' = pool.allocateJob m i function := by
  by_cases hfull : (pool.allocator i).blocksInitialized = (pool.allocator i).maxBlocks
  · simp only [allocateJob, if_pos hfull] at h ⊢
    split at h
    · next hnull => simp only [if_pos hnull]
    · cases h
  · simp only [allocateJob, if_neg hfull] at h ⊢
    split at h
    · next hnull => simp only [if_pos hnull]
    · cases h

/-- Whether there is a job, and which, does not depend on the bytes, nor on the callable. -/
theorem allocateJob_result_eq (pool : JobPool) :
    (pool.allocateJob m i function).1 = (pool.allocateJob m' i function').1 := by
  obtain ⟨a, m₁, hresult, ha⟩ := pool.allocateJob_result m i function
  obtain ⟨a', m₁', hresult', ha'⟩ := pool.allocateJob_result m' i function'
  have hsame : a = a' := by
    rw [ha, ha']
    split
    · exact pool.freeAllThisThread_allocator m m' i
    · rfl
  have hnext : (a.allocate m₁).1 = (a.allocate m₁').1 := by
    unfold FixedPoolAllocator.allocate
    split <;> rfl
  rw [hresult, hresult', ← hsame, hnext]

end Result

section Thread
variable {capacity base i : ℕ} {pool : JobPool} {m : Memory} {cs live : List ℕ}
variable {function : List UInt8}

abbrev ShelfOf (capacity base i : ℕ) (pool : JobPool) (m : Memory) (cs live : List ℕ) : Prop :=
  Shelf capacity base i (pool.allocator i) (pool.freeList i) m cs live

theorem freeAllThisThread_spec (hbase : base ≠ nullptr)
    (hfits : base + Job.size * capacity < 256 ^ 8) (ha : i < pool.allocators.length)
    (hf : i < pool.freeLists.length) (h : ShelfOf capacity base i pool m cs live) :
    ∃ pool' m' calls, pool.freeAllThisThread m i = (pool', m', calls) ∧
      OnlyThread i pool pool' ∧
      ShelfOf capacity base i pool' m' ((pool.freeList i).entries ++ cs) live ∧
      (pool'.freeList i).entries = [] ∧
      calls = (pool.freeList i).entries.reverse.map (·, none) ∧
      ∀ lo hi, (∀ e ∈ (pool.freeList i).entries, hi ≤ e ∨ e + 8 ≤ lo) → m.Same m' lo hi := by
  obtain ⟨a', fl', m', calls, hdrain, hshelf, hnone, hcalls, hsame⟩ := h.drain hbase hfits rfl
  have halloc : ((pool.setAllocator i a').setFreeList i fl').allocator i = a' := by
    rw [allocator_setFreeList, allocator_setAllocator ha]
  have hlist : ((pool.setAllocator i a').setFreeList i fl').freeList i = fl' :=
    freeList_setFreeList hf
  refine ⟨_, m', calls, ?_, (onlyThread_setAllocator a').trans (onlyThread_setFreeList fl'), ?_,
    ?_, hcalls, hsame⟩
  · simp only [freeAllThisThread, hdrain]
  · rwa [ShelfOf, halloc, hlist]
  · rwa [hlist]

theorem allocate_spec {self : ℕ} (hself : self < 256 ^ 8) (hi : i < 256 ^ 4)
    (hbase : base ≠ nullptr) (ha : i < pool.allocators.length)
    (hfn : function.length ≤ Job.functionRoom)
    (h : ShelfOf capacity base i pool m cs live) :
    (cs = [] ∧ (pool.allocator i).allocate m = (nullptr, pool.allocator i)) ∨
    ∃ c cs' a', cs = c :: cs' ∧ (pool.allocator i).allocate m = (c, a') ∧ c ≠ nullptr ∧
      (pool.allocator i).next = c ∧
      ShelfOf capacity base i (pool.setAllocator i a') (construct m c self i function) cs'
        (c :: live) := by
  cases cs with
  | nil => exact Or.inl ⟨rfl, h.chain.allocate_nil⟩
  | cons c cs =>
    obtain ⟨a', halloc, hshelf⟩ := h.construct hi hself hfn
    refine Or.inr ⟨c, cs, a', rfl, halloc, ?_, h.chain.linked.1, ?_⟩
    · have hlo := (blocks_bounds (h.chain.mem_blocks c List.mem_cons_self)).1
      unfold nullptr at *
      omega
    · rwa [ShelfOf, allocator_setAllocator ha, freeList_setAllocator]

/-- An allocation takes the next block, or fails because every block is live. The free list
is taken back only if the chain is empty. -/
theorem allocateJob_spec (hself : pool.self < 256 ^ 8) (hi : i < 256 ^ 4)
    (hbase : base ≠ nullptr) (hfits : base + Job.size * capacity < 256 ^ 8)
    (ha : i < pool.allocators.length) (hf : i < pool.freeLists.length)
    (hfn : function.length ≤ Job.functionRoom) (h : ShelfOf capacity base i pool m cs live) :
    ∃ result pool' m' calls, pool.allocateJob m i function = (result, pool', m', calls) ∧
      OnlyThread i pool pool' ∧ (∀ call ∈ calls, call.2 = none) ∧
      ((result = .error exhausted ∧ pool.nextBlock i = none ∧
          (∀ p ∈ blocks base Job.size capacity, p ∈ live) ∧
          ShelfOf capacity base i pool' m' [] live ∧ m' = m) ∨
        ∃ c cs' m₁, result = .ok c ∧ pool.nextBlock i = some c ∧
          m' = construct m₁ c pool.self i function ∧
          ShelfOf capacity base i pool' m' cs' (c :: live) ∧
          ((cs = [] ∧ (pool.freeList i).entries = c :: cs' ∧ (pool'.freeList i).entries = []) ∨
            cs = c :: cs' ∧ pool'.freeList i = pool.freeList i) ∧
          ∀ lo hi, (∀ e ∈ (pool.freeList i).entries, hi ≤ e ∨ e + 8 ≤ lo) → m.Same m₁ lo hi) := by
  by_cases hfull : (pool.allocator i).blocksInitialized = (pool.allocator i).maxBlocks
  · obtain ⟨pool₁, m₁, calls, hcall, honly, hshelf, hnone, hcalls, hsame⟩ :=
      freeAllThisThread_spec hbase hfits ha hf h
    obtain rfl := h.chain.full_iff.mp hfull
    rw [List.append_nil] at hshelf
    have hcallsOk : ∀ call ∈ calls, call.2 = none := by
      intro call hc
      rw [hcalls] at hc
      obtain ⟨p, -, rfl⟩ := List.mem_map.mp hc
      rfl
    have ha₁ : i < pool₁.allocators.length := honly.allocators_length ▸ ha
    have hself₁ : pool.self < 256 ^ 8 := hself
    rcases allocate_spec hself₁ hi hbase ha₁ hfn hshelf with
      ⟨hcs, halloc⟩ | ⟨c, cs', a', hcs, halloc, hne, -, hshelf'⟩
    · have hm : m₁ = m := funext fun x =>
        hsame x (x + 1) (by simp [hcs]) x le_rfl (Nat.lt_succ_self x)
      subst hm
      refine ⟨_, pool₁.setAllocator i (pool₁.allocator i), m₁, calls, ?_,
        honly.trans (onlyThread_setAllocator _), hcallsOk, Or.inl ⟨rfl, ?_, ?_, ?_, rfl⟩⟩
      · simp only [allocateJob, if_pos hfull, hcall, halloc, if_true]
      · rw [nextBlock, if_pos hfull, hcs]
        rfl
      · exact h.exhausted_iff.mpr ⟨rfl, hcs⟩
      · rw [hcs] at hshelf
        rwa [ShelfOf, allocator_setAllocator ha₁, freeList_setAllocator]
    · refine ⟨_, pool₁.setAllocator i a', _, calls, ?_, honly.trans (onlyThread_setAllocator _),
        hcallsOk,
        Or.inr ⟨c, cs', m₁, rfl, ?_, rfl, hshelf', Or.inl ⟨rfl, hcs, hnone⟩, hsame⟩⟩
      · simp only [allocateJob, if_pos hfull, hcall, halloc, if_neg hne, setAllocator_self,
          honly.self_eq]
      · rw [nextBlock, if_pos hfull, hcs]
        rfl
  · rcases allocate_spec hself hi hbase ha hfn h with
      ⟨rfl, -⟩ | ⟨c, cs', a', rfl, halloc, hne, hnext, hshelf'⟩
    · exact absurd (h.chain.full_iff.mpr rfl) hfull
    · refine ⟨_, pool.setAllocator i a', _, [], ?_, onlyThread_setAllocator _, by simp,
        Or.inr ⟨c, cs', m, rfl, ?_, rfl, hshelf', Or.inr ⟨rfl, rfl⟩, fun _ _ _ => .refl _ _ _⟩⟩
      · simp only [allocateJob, if_neg hfull, halloc, if_neg hne, setAllocator_self]
      · rw [nextBlock, if_neg hfull, hnext]

theorem freeJob_spec {p : ℕ} (hf : i < pool.freeLists.length)
    (h : ShelfOf capacity base i pool m cs live) (hp : p ∈ live) :
    OnlyThread i pool (pool.freeJob m p) ∧
      ((pool.freeJob m p).freeList i).entries = (pool.freeList i).entries ++ [p] ∧
      ShelfOf capacity base i (pool.freeJob m p) m cs (live.erase p) := by
  have htag : Job.workerAlloc m p = i := h.tagged p (List.mem_append_right _ hp)
  simp only [freeJob, htag]
  refine ⟨onlyThread_setFreeList _, ?_, ?_⟩
  · rw [freeList_setFreeList hf]
    exact h.push_entries hp
  · rw [ShelfOf, allocator_setFreeList, freeList_setFreeList hf]
    exact h.push hp

end Thread

end Jobrocket.JobPool
