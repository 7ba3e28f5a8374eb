import Jobrocket.Detail.FixedPoolAllocator

/-! # Jobs in memory

A job is a block of 72 bytes: the source pool, the state, the group counter and the
allocating worker, each aligned to its size, then the buffer for the callable. While its
block is free, the first word of the block is the allocator's and not the job's.
-/
namespace Jobrocket.Job
open Library Memory

inductive State where
  | unknown
  | ready
  | running
  | completed
  deriving DecidableEq

def State.code : State → ℕ
  | .unknown => 0
  | .ready => 1
  | .running => 2
  | .completed => 3

/-- `sizeof(Job)` -/
def size : ℕ := 72

/-- The size of the buffer, `64 - data_size`. -/
def functionSize : ℕ := 40

/-- The bytes of the block from the start of the buffer on: padding follows the buffer. -/
def functionRoom : ℕ := 44

theorem functionSize_le_room : functionSize ≤ functionRoom := by decide

def sourcePool (m : Memory) (job : ℕ) : ℕ := m.load 8 job
def state (m : Memory) (job : ℕ) : ℕ := m.load 4 (job + 8)
def groupCounter (m : Memory) (job : ℕ) : ℕ := m.load 8 (job + 16)
def workerAlloc (m : Memory) (job : ℕ) : ℕ := m.load 4 (job + 24)

def setSourcePool (m : Memory) (job pool : ℕ) : Memory := m.store 8 job pool
def setState (m : Memory) (job : ℕ) (s : State) : Memory := m.store 4 (job + 8) s.code
def setGroupCounter (m : Memory) (job counter : ℕ) : Memory := m.store 8 (job + 16) counter
def setWorkerAlloc (m : Memory) (job index : ℕ) : Memory := m.store 4 (job + 24) index

/-- The placement of the callable into the buffer. -/
def setFunction (m : Memory) (job : ℕ) (function : List UInt8) : Memory :=
  m.storeBytes (job + 28) function

/-- `is_ready(job)` -/
def isReady (m : Memory) (job : ℕ) : Bool := job != nullptr && state m job == State.ready.code

variable {m m' : Memory} {p : ℕ}

theorem isReady_iff : isReady m p = true ↔ p ≠ nullptr ∧ state m p = State.ready.code := by
  simp [isReady]

theorem sourcePool_of_same (h : m.Same m' p (p + size)) : sourcePool m' p = sourcePool m p :=
  h.load_eq le_rfl (Nat.add_le_add_left (by decide) p)

theorem state_of_same (h : m.Same m' (p + 8) (p + size)) : state m' p = state m p :=
  h.load_eq le_rfl (by unfold size; omega)

theorem groupCounter_of_same (h : m.Same m' (p + 8) (p + size)) :
    groupCounter m' p = groupCounter m p := h.load_eq (by omega) (by unfold size; omega)

theorem state_code_lt (s : State) : s.code < 256 ^ 4 := by cases s <;> decide

theorem state_setState_self (m : Memory) (p : ℕ) (s : State) :
    state (setState m p s) p = s.code := load_store_self _ _ (state_code_lt s)

theorem same_setState {lo hi : ℕ} (m : Memory) (s : State) (h : hi ≤ p + 8 ∨ p + 12 ≤ lo) :
    m.Same (setState m p s) lo hi := same_store h

@[simp] theorem sourcePool_setState (m : Memory) (p : ℕ) (s : State) :
    sourcePool (setState m p s) p = sourcePool m p := load_store_of_disjoint _ (by omega)

@[simp] theorem groupCounter_setState (m : Memory) (p : ℕ) (s : State) :
    groupCounter (setState m p s) p = groupCounter m p := load_store_of_disjoint _ (by omega)

@[simp] theorem sourcePool_setGroupCounter (m : Memory) (p g : ℕ) :
    sourcePool (setGroupCounter m p g) p = sourcePool m p := load_store_of_disjoint _ (by omega)

@[simp] theorem state_setGroupCounter (m : Memory) (p g : ℕ) :
    state (setGroupCounter m p g) p = state m p := load_store_of_disjoint _ (by omega)

theorem groupCounter_setGroupCounter_self (m : Memory) (p : ℕ) {g : ℕ} (h : g < 2 ^ 64) :
    groupCounter (setGroupCounter m p g) p = g := load_store_self _ _ h

end Jobrocket.Job
