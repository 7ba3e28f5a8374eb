import Jobrocket.Detail.FixedPoolAllocator
import Jobrocket.Library.Machine
import Jobrocket.Library.Stock

/-! # The allocator against a stack of blocks

Blocks are taken from the top of a stack and put back onto it. The links of the stack lie
in the free blocks, where nobody writes as long as clients keep to the blocks they were
given; in the blocks that are handed out the old links are lost and not needed.
-/
namespace Jobrocket.FixedPoolAllocator
open Library Memory

/-- A call on the allocator, or a write by a client. -/
inductive Call where
  | allocate
  | free (data : ℕ)
  | reset
  | write (a : ℕ) (bytes : List UInt8)
  deriving DecidableEq

inductive Answer where
  | block (p : ℕ)
  | freed (success : Bool)
  | done
  deriving DecidableEq

/-- The allocator and the memory it works on. -/
def machine : Machine (FixedPoolAllocator × Memory) Call Answer
  | (a, m), .allocate =>
    let (p, a) := a.allocate m
    (.block p, (a, m))
  | (a, m), .free data =>
    match a.free m data with
    | .ok s => (.freed true, s)
    | .error _ => (.freed false, (a, m))
  | (a, m), .reset => (.done, a.reset m)
  | (a, m), .write x bytes => (.done, (a, m.storeBytes x bytes))

/-- The stack of the blocks, with the lowest address on top at first. -/
def stack (base size count : ℕ) : Machine (Stock ℕ) Call Answer
  | s, .allocate => (.block (s.take.1.getD nullptr), s.take.2)
  | s, .free data => (.freed true, s.putBack data)
  | _, .reset => (.done, .full (blocks base size count))
  | s, .write _ _ => (.done, s)

/-- Clients free blocks that they hold, and write into blocks that they hold. -/
def Allowed (size : ℕ) (s : Stock ℕ) : Call → Prop
  | .free data => data ∈ s.held
  | .write a bytes => ∃ p ∈ s.held, p ≤ a ∧ a + bytes.length ≤ p + size
  | _ => True

/-- The chain of free blocks is the stack. -/
structure Refines (base size count : ℕ) (s : FixedPoolAllocator × Memory) (t : Stock ℕ) :
    Prop where
  chain : Represents base size count s.1 s.2 t.waiting
  stock : t.Of (blocks base size count)

section Refines
variable {base size count : ℕ} {s : FixedPoolAllocator × Memory} {t : Stock ℕ} {p : ℕ}

theorem refines_create (hsize : 8 ≤ size) (hfits : base + size * count < 256 ^ 8) (m : Memory) :
    Refines base size count (create base size count m) (.full (blocks base size count)) :=
  ⟨represents_create hsize hfits m, Stock.of_full _⟩

theorem Refines.waiting_nil_iff (h : Refines base size count s t) :
    t.waiting = [] ↔ t.held.length = count := by
  rw [h.stock.waiting_nil_iff, blocks_length]

theorem Refines.held_apart (h : Refines base size count s t) {q : ℕ} (hp : p ∈ t.held)
    (hq : q ∈ t.held) (hne : p ≠ q) : p + size ≤ q ∨ q + size ≤ p :=
  blocks_disjoint (h.stock.mem_held hp) (h.stock.mem_held hq) hne

theorem Refines.allocate (h : Refines base size count s t) :
    (machine s .allocate).1 = (stack base size count t .allocate).1 ∧
      Refines base size count (machine s .allocate).2 (stack base size count t .allocate).2 := by
  have hchain := h.chain
  have hstock : t.take.2.Of (blocks base size count) := h.stock.take
  cases hw : t.waiting with
  | nil =>
    rw [hw] at hchain
    have hcall : machine s .allocate = (.block nullptr, s) := by
      simp only [machine, hchain.allocate_nil]
    rw [hcall, stack, Stock.take_nil hw]
    exact ⟨rfl, h⟩
  | cons c cs =>
    rw [hw] at hchain
    obtain ⟨a', hres, hchain'⟩ := hchain.allocate_cons
    have hcall : machine s .allocate = (.block c, (a', s.2)) := by
      simp only [machine, hres]
    rw [Stock.take_cons hw] at hstock
    rw [hcall, stack, Stock.take_cons hw]
    exact ⟨rfl, hchain', hstock⟩

theorem Refines.free (h : Refines base size count s t) (hsize : 8 ≤ size) (hbase : base ≠ nullptr)
    (hfits : base + size * count < 256 ^ 8) (hp : p ∈ t.held) :
    (machine s (.free p)).1 = .freed true ∧
      Refines base size count (machine s (.free p)).2 (t.putBack p) := by
  have hblocks : (blocks base size count).Nodup := blocks_nodup (by omega)
  have hcount := h.stock.length
  have hpos := List.length_pos_of_mem hp
  rw [blocks_length] at hcount
  obtain ⟨a', hres, hchain⟩ := h.chain.free_ok hsize hbase hfits (h.stock.mem_held hp)
    (h.stock.not_waiting hblocks hp) (by omega)
  have hcall : machine s (.free p) = (.freed true, (a', s.2.store 8 p s.1.next)) := by
    simp only [machine, hres]
  rw [hcall]
  exact ⟨rfl, hchain, h.stock.putBack hp⟩

theorem Refines.reset (h : Refines base size count s t) (hsize : 8 ≤ size)
    (hfits : base + size * count < 256 ^ 8) :
    Refines base size count (machine s .reset).2 (.full (blocks base size count)) := by
  have hcreate : s.1.reset s.2 = create base size count s.2 := by
    simp only [FixedPoolAllocator.reset, create, stop, h.chain.memory_eq, h.chain.blockSize_eq,
      h.chain.maxBlocks_eq]
  have hcall : (machine s .reset).2 = create base size count s.2 := hcreate
  rw [hcall]
  exact refines_create hsize hfits s.2

/-- A client's write into its own block reaches no link. -/
theorem Refines.write (h : Refines base size count s t) (hsize : 8 ≤ size) (hp : p ∈ t.held)
    {a : ℕ} {bytes : List UInt8} (hlo : p ≤ a) (hhi : a + bytes.length ≤ p + size) :
    Refines base size count (machine s (.write a bytes)).2 t := by
  refine ⟨h.chain.transport fun c hc => same_storeBytes ?_, h.stock⟩
  have hblocks : (blocks base size count).Nodup := blocks_nodup (by omega)
  have hne : p ≠ c := by
    rintro rfl
    exact h.stock.not_waiting hblocks hp hc
  have := blocks_disjoint (h.stock.mem_held hp) (h.stock.mem_waiting hc) hne
  omega

theorem machine_simulates_stack (hsize : 8 ≤ size) (hbase : base ≠ nullptr)
    (hfits : base + size * count < 256 ^ 8) :
    machine.Simulates (stack base size count) (Refines base size count)
      fun _ t call => Allowed size t call := by
  intro s t call h hallowed
  cases call with
  | allocate => exact h.allocate
  | free data => exact h.free hsize hbase hfits hallowed
  | reset => exact ⟨rfl, h.reset hsize hfits⟩
  | write a bytes =>
    obtain ⟨p, hp, hlo, hhi⟩ := hallowed
    exact ⟨rfl, h.write hsize hp hlo hhi⟩

/-- What the clients hold: blocks of the pool that do not overlap. A further allocation is
refused exactly if they hold all of them. -/
structure Issued (base size count : ℕ) (t : Stock ℕ) : Prop where
  nodup : t.held.Nodup
  aligned : ∀ p ∈ t.held, ∃ k < count, p = base + size * k
  within : ∀ p ∈ t.held, base ≤ p ∧ p + size ≤ base + size * count
  apart : ∀ p ∈ t.held, ∀ q ∈ t.held, p ≠ q → p + size ≤ q ∨ q + size ≤ p
  refused_iff : (stack base size count t .allocate).1 = .block nullptr ↔ t.held.length = count

theorem Refines.issued (h : Refines base size count s t) (hsize : 8 ≤ size)
    (hbase : base ≠ nullptr) : Issued base size count t where
  nodup := h.stock.held_nodup (blocks_nodup (by omega))
  aligned _ hp := mem_blocks.mp (h.stock.mem_held hp)
  within _ hp := blocks_bounds (h.stock.mem_held hp)
  apart _ hp _ hq := h.held_apart hp hq
  refused_iff := by
    rw [← h.waiting_nil_iff]
    cases hw : t.waiting with
    | nil =>
      rw [stack, Stock.take_nil hw]
      exact iff_of_true rfl rfl
    | cons c cs =>
      have hc : c ∈ t.waiting := hw ▸ List.mem_cons_self
      have hlo := (blocks_bounds (h.stock.mem_waiting hc)).1
      rw [stack, Stock.take_cons hw]
      refine iff_of_false (fun heq => ?_) (List.cons_ne_nil _ _)
      have hnull : c = nullptr := Answer.block.inj heq
      unfold nullptr at hbase hnull
      omega

end Refines

section Runs
variable {base size count : ℕ} {calls : List Call}

theorem refines_after (hsize : 8 ≤ size) (hbase : base ≠ nullptr)
    (hfits : base + size * count < 256 ^ 8) (m : Memory)
    (hallowed : ∀ pre call, pre ++ [call] <+: calls →
      Allowed size ((stack base size count).after (.full (blocks base size count)) pre) call)
    {pre : List Call} (hpre : pre <+: calls) :
    Refines base size count (machine.after (create base size count m) pre)
      ((stack base size count).after (.full (blocks base size count)) pre) :=
  (machine_simulates_stack hsize hbase hfits).after (refines_create hsize hfits m) hallowed hpre

theorem results_create (hsize : 8 ≤ size) (hbase : base ≠ nullptr)
    (hfits : base + size * count < 256 ^ 8) (m : Memory)
    (hallowed : ∀ pre call, pre ++ [call] <+: calls →
      Allowed size ((stack base size count).after (.full (blocks base size count)) pre) call) :
    machine.results (create base size count m) calls =
      (stack base size count).results (.full (blocks base size count)) calls :=
  (machine_simulates_stack hsize hbase hfits).results (refines_create hsize hfits m) hallowed

end Runs

/-- The allocator is the stack of its blocks in every run in which clients free and write
only blocks that they hold; what follows a reset is what a new allocator would do. -/
theorem results_eq_stack (base size count : ℕ) (hsize : 8 ≤ size) (hbase : base ≠ nullptr)
    (hfits : base + size * count < 256 ^ 8) (m₀ : Memory) (calls : List Call)
    (hallowed : ∀ pre call, pre ++ [call] <+: calls →
      Allowed size ((stack base size count).after (.full (blocks base size count)) pre) call) :
    machine.results (create base size count m₀) calls =
        (stack base size count).results (.full (blocks base size count)) calls ∧
      (∀ pre, pre <+: calls → Issued base size count
        ((stack base size count).after (.full (blocks base size count)) pre)) ∧
      ∀ pre rest m, calls = pre ++ .reset :: rest →
        machine.results (machine.after (create base size count m₀) (pre ++ [.reset])) rest =
          machine.results (create base size count m) rest := by
  refine ⟨results_create hsize hbase hfits m₀ hallowed, fun pre hpre => ?_, ?_⟩
  · exact (refines_after hsize hbase hfits m₀ hallowed hpre).issued hsize hbase
  · rintro pre rest m rfl
    have hpre : pre ++ [.reset] <+: pre ++ .reset :: rest := ⟨rest, by simp⟩
    have hafter := refines_after hsize hbase hfits m₀ hallowed hpre
    have hfull : (stack base size count).after (.full (blocks base size count)) (pre ++ [.reset]) =
        .full (blocks base size count) := Machine.after_append ..
    rw [hfull] at hafter
    -- the stack is the full one again, so the rest is allowed for a new allocator as well
    have hrest : ∀ pre' call, pre' ++ [call] <+: rest →
        Allowed size ((stack base size count).after (.full (blocks base size count)) pre') call := by
      rintro pre' call ⟨post, rfl⟩
      have hcall := hallowed (pre ++ .reset :: pre') call ⟨post, by simp⟩
      rwa [Machine.after_append, Machine.after_cons] at hcall
    rw [results_create hsize hbase hfits m hrest]
    exact (machine_simulates_stack hsize hbase hfits).results hafter hrest

/-- A client writes into one of its blocks and frees it, and then the pool is reset. -/
theorem results_eq_stack_recycled :
    let calls := [.allocate, .allocate, .write 1024 [1, 2], .free 1024, .reset, .allocate]
    machine.results (create 1024 8 2 fun _ => 0) calls =
        (stack 1024 8 2).results (.full (blocks 1024 8 2)) calls ∧
      (∀ pre, pre <+: calls →
        Issued 1024 8 2 ((stack 1024 8 2).after (.full (blocks 1024 8 2)) pre)) ∧
      ∀ pre rest m, calls = pre ++ .reset :: rest →
        machine.results (machine.after (create 1024 8 2 fun _ => 0) (pre ++ [.reset])) rest =
          machine.results (create 1024 8 2 m) rest := by
  intro calls
  refine results_eq_stack 1024 8 2 (by decide) (by decide) (by decide) (fun _ => 0) calls ?_
  intro pre call hpre
  obtain ⟨n, hn, rfl, rfl⟩ := concat_prefix_iff.mp hpre
  have hn : n < 6 := hn
  interval_cases n
  · trivial
  · trivial
  · exact ⟨1024, by decide, by decide, by decide⟩
  · change 1024 ∈ [1032, 1024]
    decide
  · trivial
  · trivial

end Jobrocket.FixedPoolAllocator
