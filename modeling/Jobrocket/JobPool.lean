import Jobrocket.Job

/-! # The job pool

Every thread has an allocator and a free list of its own. A job that is done goes to the
free list of the thread that allocated it, whoever ran it; only when that thread finds
its allocator full does it empty the list back into the allocator. Threads are named by
the index `get_index` gives them.
-/
namespace Jobrocket
open Library Memory

/-- Freed jobs, kept until their thread needs blocks again. -/
structure FreeList where
  next : ℕ := 0
  capacity : ℕ := 0
  elements : List ℕ := []
  deriving DecidableEq, Inhabited

namespace FreeList

def create (capacity : ℕ) : FreeList :=
  { next := 0, capacity := capacity, elements := List.replicate capacity nullptr }

/-- A write behind the end of `elements_` is lost here; in the source it is undefined. -/
def push (fl : FreeList) (job : ℕ) : FreeList :=
  { fl with elements := fl.elements.set fl.next job, next := fl.next + 1 }

def pop (fl : FreeList) : ℕ × FreeList :=
  if fl.next = 0 then (nullptr, fl)
  else
    let n := fl.next - 1
    (fl.elements.getD n nullptr, { fl with next := n, elements := fl.elements.set n nullptr })

def empty (fl : FreeList) : Bool := fl.next ≤ 0

def reset (fl : FreeList) : FreeList :=
  { fl with next := 0, elements := fl.elements.map fun _ => nullptr }

def entries (fl : FreeList) : List ℕ := fl.elements.take fl.next

/-- The slots behind the entries are null. -/
def Clean (fl : FreeList) : Prop := ∀ p, fl.next ≤ p → fl.elements.getD p nullptr = nullptr

@[simp] theorem create_entries (capacity : ℕ) : (create capacity).entries = [] := rfl

@[simp] theorem push_elements_length (fl : FreeList) (job : ℕ) :
    (fl.push job).elements.length = fl.elements.length := List.length_set

theorem entries_length {fl : FreeList} (h : fl.next ≤ fl.elements.length) :
    fl.entries.length = fl.next := by
  rw [entries, List.length_take]
  exact Nat.min_eq_left h

theorem empty_iff {fl : FreeList} : fl.empty = true ↔ fl.next = 0 := by simp [empty]

theorem push_entries {fl : FreeList} (h : fl.next < fl.elements.length) (job : ℕ) :
    (fl.push job).entries = fl.entries ++ [job] := by
  rw [entries, push, List.take_add_one, List.getElem?_set_self h, List.take_set_of_le le_rfl]
  rfl

theorem pop_succ {fl : FreeList} {n : ℕ} (hn : fl.next = n + 1) (h : n < fl.elements.length) :
    ∃ job fl', fl.pop = (job, fl') ∧ fl'.next = n ∧
      fl'.elements.length = fl.elements.length ∧ fl.entries = fl'.entries ++ [job] := by
  refine ⟨fl.elements[n], { fl with next := n, elements := fl.elements.set n nullptr },
    ?_, rfl, List.length_set, ?_⟩
  · simp [pop, hn, List.getD_eq_getElem?_getD, h]
  · simp only [entries, hn, List.take_set_of_le le_rfl]
    exact (List.take_append_getElem h).symm

theorem clean_create (capacity : ℕ) : (create capacity).Clean := by
  intro p _
  simp only [create, List.getD_eq_getElem?_getD, List.getElem?_replicate]
  split <;> rfl

theorem clean_reset (fl : FreeList) : fl.reset.Clean := by
  intro p _
  simp only [reset, List.getD_eq_getElem?_getD, List.getElem?_map]
  cases fl.elements[p]? <;> rfl

theorem Clean.push {fl : FreeList} (h : fl.Clean) (job : ℕ) : (fl.push job).Clean := by
  intro p (hp : fl.next + 1 ≤ p)
  have hne : fl.next ≠ p := by omega
  have hsame := h p (by omega)
  rw [List.getD_eq_getElem?_getD] at hsame ⊢
  rwa [FreeList.push, List.getElem?_set_ne hne]

theorem Clean.pop {fl : FreeList} (h : fl.Clean) : fl.pop.2.Clean := by
  by_cases hz : fl.next = 0
  · rwa [FreeList.pop, if_pos hz]
  · rw [FreeList.pop, if_neg hz]
    intro p (hp : fl.next - 1 ≤ p)
    rw [List.getD_eq_getElem?_getD, List.getElem?_set]
    split
    · split <;> rfl
    · rw [← List.getD_eq_getElem?_getD]
      exact h p (by omega)

end FreeList

/-- The pool's members; `self` is its address. -/
structure JobPool where
  self : ℕ
  numThreads : ℕ
  allocators : List FixedPoolAllocator
  freeLists : List FreeList

namespace JobPool

def allocator (pool : JobPool) (i : ℕ) : FixedPoolAllocator := pool.allocators.getD i default

def freeList (pool : JobPool) (i : ℕ) : FreeList := pool.freeLists.getD i default

def setAllocator (pool : JobPool) (i : ℕ) (a : FixedPoolAllocator) : JobPool :=
  { pool with allocators := pool.allocators.set i a }

def setFreeList (pool : JobPool) (i : ℕ) (fl : FreeList) : JobPool :=
  { pool with freeLists := pool.freeLists.set i fl }

section Members
variable {pool : JobPool} {i j : ℕ} {a : FixedPoolAllocator} {fl : FreeList}

@[simp] theorem setAllocator_self : (pool.setAllocator i a).self = pool.self := rfl
@[simp] theorem setFreeList_self : (pool.setFreeList i fl).self = pool.self := rfl
@[simp] theorem setAllocator_freeLists :
    (pool.setAllocator i a).freeLists = pool.freeLists := rfl
@[simp] theorem setFreeList_allocators :
    (pool.setFreeList i fl).allocators = pool.allocators := rfl
@[simp] theorem setAllocator_allocators_length :
    (pool.setAllocator i a).allocators.length = pool.allocators.length := List.length_set
@[simp] theorem setFreeList_freeLists_length :
    (pool.setFreeList i fl).freeLists.length = pool.freeLists.length := List.length_set
@[simp] theorem freeList_setAllocator : (pool.setAllocator i a).freeList j = pool.freeList j := rfl
@[simp] theorem allocator_setFreeList :
    (pool.setFreeList i fl).allocator j = pool.allocator j := rfl

theorem allocator_setAllocator (h : i < pool.allocators.length) :
    (pool.setAllocator i a).allocator i = a := by
  simp [allocator, setAllocator, List.getD_eq_getElem?_getD, h]

theorem allocator_setAllocator_ne (h : j ≠ i) :
    (pool.setAllocator i a).allocator j = pool.allocator j := by
  simp [allocator, setAllocator, List.getD_eq_getElem?_getD, List.getElem?_set_ne h.symm]

theorem freeList_setFreeList (h : i < pool.freeLists.length) :
    (pool.setFreeList i fl).freeList i = fl := by
  simp [freeList, setFreeList, List.getD_eq_getElem?_getD, h]

theorem freeList_setFreeList_ne (h : j ≠ i) :
    (pool.setFreeList i fl).freeList j = pool.freeList j := by
  simp [freeList, setFreeList, List.getD_eq_getElem?_getD, List.getElem?_set_ne h.symm]

end Members

/-- The allocators of the constructor, built one after another over the arrays that
`new` returned. -/
def createAllocators (capacity : ℕ) : List ℕ → Memory → List FixedPoolAllocator × Memory
  | [], m => ([], m)
  | base :: bases, m =>
    let (a, m) := FixedPoolAllocator.create base Job.size capacity m
    let (as, m) := createAllocators capacity bases m
    (a :: as, m)

/-- A pool for `bases.length` threads. -/
def create (self capacity : ℕ) (bases : List ℕ) (m : Memory) : JobPool × Memory :=
  let (allocators, m) := createAllocators capacity bases m
  ({ self := self, numThreads := bases.length, allocators := allocators,
     freeLists := List.replicate bases.length (FreeList.create capacity) }, m)

/-- The loop of `free_all_this_thread`, with a bound on its number of turns. The list
holds what every call of the allocator's `free` was given and the error it printed. -/
def drain : ℕ → FixedPoolAllocator → FreeList → Memory →
    FixedPoolAllocator × FreeList × Memory × List (ℕ × Option Error)
  | 0, a, fl, m => (a, fl, m, [])
  | turns + 1, a, fl, m =>
    if fl.empty then (a, fl, m, [])
    else
      let (job, fl) := fl.pop
      let (a, m, error) := match a.free m job with
        | .ok (a, m) => (a, m, none)
        | .error e => (a, m, some e)
      let (a, fl, m, calls) := drain turns a fl m
      (a, fl, m, (job, error) :: calls)

def freeAllThisThread (pool : JobPool) (m : Memory) (index : ℕ) :
    JobPool × Memory × List (ℕ × Option Error) :=
  let fl := pool.freeList index
  let (a, fl, m, calls) := drain fl.next (pool.allocator index) fl m
  ((pool.setAllocator index a).setFreeList index fl, m, calls)

/-- The placement of a new job; `function` are the bytes that the constructor of the
`JobFunction` writes, which leave out what pads it at the end. -/
def construct (m : Memory) (job self index : ℕ) (function : List UInt8) : Memory :=
  let m := Job.setFunction m job function
  let m := Job.setSourcePool m job self
  let m := Job.setWorkerAlloc m job index
  let m := Job.setState m job .ready
  Job.setGroupCounter m job nullptr

def exhausted : Error :=
  ⟨"JobPool", "Tried allocating a new job but there were no jobs available in the pool", none⟩

/-- A new job for the thread, or the error that is printed before null is returned. -/
def allocateJob (pool : JobPool) (m : Memory) (index : ℕ) (function : List UInt8) :
    Except Error ℕ × JobPool × Memory × List (ℕ × Option Error) :=
  let a := pool.allocator index
  let (pool, m, calls) :=
    if a.blocksInitialized = a.maxBlocks then pool.freeAllThisThread m index
    else (pool, m, [])
  let (job, a) := (pool.allocator index).allocate m
  let pool := pool.setAllocator index a
  if job = nullptr then
    (.error exhausted, pool, m, calls)
  else
    (.ok job, pool, construct m job pool.self index function, calls)

def freeJob (pool : JobPool) (m : Memory) (job : ℕ) : JobPool :=
  let i := Job.workerAlloc m job
  pool.setFreeList i ((pool.freeList i).push job)

/-- The loop of `reset`. Its body names the first thread in every turn. -/
def resetLoop : ℕ → JobPool → Memory → JobPool × Memory
  | 0, pool, m => (pool, m)
  | turns + 1, pool, m =>
    let pool := pool.setFreeList 0 (pool.freeList 0).reset
    let (a, m) := (pool.allocator 0).reset m
    resetLoop turns (pool.setAllocator 0 a) m

def reset (pool : JobPool) (m : Memory) : JobPool × Memory := resetLoop pool.numThreads pool m

end JobPool

end Jobrocket
