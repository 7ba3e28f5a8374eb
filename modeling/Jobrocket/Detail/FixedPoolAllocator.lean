import Jobrocket.Detail.Error
import Jobrocket.Library.FreeChain

/-! # The fixed-size pool allocator

Same-sized blocks are cut from one array of bytes. A free block keeps the address of the
next free block in its first word, so the free blocks form a chain that starts at `next_`.
Pointers are addresses, and the null pointer is the address zero.
-/
namespace Jobrocket
open Library Memory

def nullptr : ℕ := 0

/-- The allocator's members. The bytes themselves are in the memory it works on. -/
structure FixedPoolAllocator where
  memory : ℕ := nullptr
  next : ℕ := nullptr
  blockSize : ℕ := 0
  maxBlocks : ℕ := 0
  blocksInitialized : ℕ := 0
  deriving DecidableEq, Inhabited

namespace FixedPoolAllocator

/-- `&memory_[block_size_ * max_blocks_]` -/
def stop (a : FixedPoolAllocator) : ℕ := a.memory + a.blockSize * a.maxBlocks

/-- The loop of `reset`, with a bound on its number of turns. -/
def resetLoop (blockSize stop : ℕ) : ℕ → Memory → ℕ → Memory
  | 0, m, _ => m
  | turns + 1, m, ptr =>
    if ptr < stop then
      resetLoop blockSize stop turns (m.store 8 ptr (ptr + blockSize)) (ptr + blockSize)
    else m

def reset (a : FixedPoolAllocator) (m : Memory) : FixedPoolAllocator × Memory :=
  ({ a with next := a.memory, blocksInitialized := 0 },
    resetLoop a.blockSize a.stop a.maxBlocks m a.memory)

/-- The constructor; `memory` is the array that `new` returned. -/
def create (memory blockSize maxBlocks : ℕ) (m : Memory) : FixedPoolAllocator × Memory :=
  reset { memory := memory, blockSize := blockSize, maxBlocks := maxBlocks } m

def allocate (a : FixedPoolAllocator) (m : Memory) : ℕ × FixedPoolAllocator :=
  if a.blocksInitialized = a.maxBlocks then (nullptr, a)
  else
    (a.next, { a with blocksInitialized := a.blocksInitialized + 1, next := m.load 8 a.next })

def free (a : FixedPoolAllocator) (m : Memory) (data : ℕ) :
    Except Error (FixedPoolAllocator × Memory) :=
  if data = nullptr then
    .error ⟨"FixedPoolAllocator", "tried to free a null pointer", none⟩
  else if a.blocksInitialized ≤ 0 then
    .error ⟨"FixedPoolAllocator", "tried to free more blocks than the pool has available",
      some "ensure all allocations/frees are in matching pairs"⟩
  else if a.stop < data ∨ data < a.memory then
    .error ⟨"FixedPoolAllocator", "attempted to free memory that wasn't allocated by the pool",
      some "consider tracking all allocations to ensure they come from the same pool"⟩
  else
    .ok ({ a with next := data, blocksInitialized := a.blocksInitialized - 1 },
      m.store 8 data a.next)

/-- Whether a block is taken back does not depend on the bytes. -/
theorem free_cases (a : FixedPoolAllocator) (p : ℕ) :
    (∃ a', ∀ m : Memory, a.free m p = .ok (a', m.store 8 p a.next)) ∨
      ∃ e, ∀ m, a.free m p = .error e := by
  by_cases hnull : p = nullptr
  · exact Or.inr ⟨_, fun m => if_pos hnull⟩
  by_cases hnone : a.blocksInitialized ≤ 0
  · exact Or.inr ⟨_, fun m => (if_neg hnull).trans (if_pos hnone)⟩
  by_cases hout : a.stop < p ∨ p < a.memory
  · exact Or.inr ⟨_, fun m => (if_neg hnull).trans ((if_neg hnone).trans (if_pos hout))⟩
  · exact Or.inl ⟨_, fun m => (if_neg hnull).trans ((if_neg hnone).trans (if_neg hout))⟩

/-- The allocator's free blocks, in the order in which it will hand them out. -/
structure Represents (base size count : ℕ) (a : FixedPoolAllocator) (m : Memory)
    (cs : List ℕ) : Prop where
  memory_eq : a.memory = base
  blockSize_eq : a.blockSize = size
  maxBlocks_eq : a.maxBlocks = count
  linked : Linked m a.next cs
  next_lt : a.next < 256 ^ 8
  count_eq : cs.length + a.blocksInitialized = count
  mem_blocks : ∀ c ∈ cs, c ∈ blocks base size count

section ResetLoop
variable {size : ℕ}

/-- The loop stops by itself: more turns than blocks change nothing. -/
theorem resetLoop_turns {k turns : ℕ} (hk : k ≤ turns) (m : Memory) (ptr : ℕ) :
    resetLoop size (ptr + size * k) turns m ptr = resetLoop size (ptr + size * k) k m ptr := by
  induction k generalizing turns m ptr with
  | zero => cases turns <;> simp [resetLoop]
  | succ k ih =>
    obtain ⟨turns, rfl⟩ := Nat.exists_eq_succ_of_ne_zero (by omega : turns ≠ 0)
    have hstop : ptr + size * (k + 1) = ptr + size + size * k := by ring
    simp only [resetLoop, hstop, ih (Nat.le_of_succ_le_succ hk)]

theorem resetLoop_same (hsize : 8 ≤ size) {lo hi : ℕ} (k : ℕ) (m : Memory) (ptr : ℕ)
    (h : hi ≤ ptr ∨ ptr + size * k ≤ lo) :
    m.Same (resetLoop size (ptr + size * k) k m ptr) lo hi := by
  induction k generalizing m ptr with
  | zero => exact .refl _ _ _
  | succ k ih =>
    have hstop : ptr + size * (k + 1) = ptr + size + size * k := by ring
    rw [resetLoop, if_pos (by omega), hstop]
    refine .trans (same_store ?_) (ih _ _ ?_) <;> omega

theorem resetLoop_linked (hsize : 8 ≤ size) (k : ℕ) (m : Memory) (ptr : ℕ)
    (hfits : ptr + size * k < 256 ^ 8) :
    Linked (resetLoop size (ptr + size * k) k m ptr) ptr (blocks ptr size k) := by
  induction k generalizing m ptr with
  | zero => trivial
  | succ k ih =>
    have hstop : ptr + size * (k + 1) = ptr + size + size * k := by ring
    rw [blocks_succ, resetLoop, if_pos (by omega), hstop]
    refine ⟨rfl, ?_⟩
    have hword := (resetLoop_same hsize k (m.store 8 ptr (ptr + size)) (ptr + size)
      (Or.inl (by omega) : ptr + 8 ≤ ptr + size ∨ _)).load_eq le_rfl le_rfl
    rw [hword, load_store_self _ _ (by omega)]
    exact ih _ _ (by omega)

end ResetLoop

section Spec
variable {base size count : ℕ} {a : FixedPoolAllocator} {m m' : Memory} {cs : List ℕ}

/-- A new allocator hands out its blocks in the order of their addresses. -/
theorem represents_create (hsize : 8 ≤ size) (hfits : base + size * count < 256 ^ 8)
    (m : Memory) :
    Represents base size count (create base size count m).1 (create base size count m).2
      (blocks base size count) where
  memory_eq := rfl
  blockSize_eq := rfl
  maxBlocks_eq := rfl
  linked := resetLoop_linked hsize count m base hfits
  next_lt := lt_of_le_of_lt (Nat.le_add_right _ _) hfits
  count_eq := blocks_length
  mem_blocks := fun _ => id

theorem create_same (hsize : 8 ≤ size) (m : Memory) {lo hi : ℕ}
    (h : hi ≤ base ∨ base + size * count ≤ lo) : m.Same (create base size count m).2 lo hi :=
  resetLoop_same hsize count m base h

theorem Represents.transport (h : Represents base size count a m cs)
    (hsame : ∀ c ∈ cs, m.Same m' c (c + 8)) : Represents base size count a m' cs :=
  { h with linked := h.linked.transport hsame }

theorem Represents.full_iff (h : Represents base size count a m cs) :
    a.blocksInitialized = a.maxBlocks ↔ cs = [] := by
  have hcount := h.count_eq
  rw [h.maxBlocks_eq, ← List.length_eq_zero_iff]
  omega

theorem Represents.allocate_nil (h : Represents base size count a m []) :
    a.allocate m = (nullptr, a) := if_pos (h.full_iff.mpr rfl)

theorem Represents.allocate_cons {c : ℕ} (h : Represents base size count a m (c :: cs)) :
    ∃ a', a.allocate m = (c, a') ∧ Represents base size count a' m cs := by
  have hfull : a.blocksInitialized ≠ a.maxBlocks := mt h.full_iff.mp (List.cons_ne_nil _ _)
  have hcount := h.count_eq
  obtain ⟨hc, hlinked⟩ := h.linked
  have hnext : m.load 8 a.next < 256 ^ 8 := load_lt 8 m a.next
  refine ⟨{ a with blocksInitialized := a.blocksInitialized + 1, next := m.load 8 a.next }, ?_, ?_⟩
  · rw [allocate, if_neg hfull, hc]
  · constructor
    case memory_eq => exact h.memory_eq
    case blockSize_eq => exact h.blockSize_eq
    case maxBlocks_eq => exact h.maxBlocks_eq
    case linked => exact hlinked
    case next_lt => exact hnext
    case count_eq =>
      rw [List.length_cons] at hcount
      dsimp only
      omega
    case mem_blocks => exact fun d hd => h.mem_blocks d (List.mem_cons_of_mem _ hd)

/-- A block that is not free is put in front of the chain. -/
theorem Represents.free_ok {p : ℕ} (h : Represents base size count a m cs) (hsize : 8 ≤ size)
    (hbase : base ≠ nullptr) (hfits : base + size * count < 256 ^ 8)
    (hp : p ∈ blocks base size count) (hnew : p ∉ cs) (hcs : cs.length < count) :
    ∃ a', a.free m p = .ok (a', m.store 8 p a.next) ∧
      Represents base size count a' (m.store 8 p a.next) (p :: cs) := by
  obtain ⟨hlo, hhi⟩ := blocks_bounds hp
  have hcount := h.count_eq
  have hstop : a.stop = base + size * count := by
    rw [stop, h.memory_eq, h.blockSize_eq, h.maxBlocks_eq]
  refine ⟨{ a with next := p, blocksInitialized := a.blocksInitialized - 1 }, ?_, ?_⟩
  · have hmem := h.memory_eq
    rw [FixedPoolAllocator.free, if_neg (by unfold nullptr at *; omega), if_neg (by omega),
      if_neg (by omega)]
  · refine { h with linked := ?_, next_lt := ?_, count_eq := ?_, mem_blocks := ?_ }
    · refine h.linked.push h.next_lt fun c hc => ?_
      have hne : p ≠ c := fun he => hnew (he ▸ hc)
      have := blocks_disjoint hp (h.mem_blocks c hc) hne
      omega
    · dsimp only
      omega
    · rw [List.length_cons]
      dsimp only
      omega
    · intro c hc
      rcases List.mem_cons.mp hc with rfl | hc
      · exact hp
      · exact h.mem_blocks c hc

end Spec

end FixedPoolAllocator

end Jobrocket
