import Jobrocket.JobPool
import Jobrocket.Library.Interleaving

/-! # The free list's calls, one access at a time

Workers put finished jobs on the free list of the thread that allocated them while that
thread empties the list. Each read or write of `next_` or of an element is one step, and
all threads see the steps in one order. A program counter holds the locals of a call
that is still in progress; an event is a pointer that the owner passes to its allocator.
-/
namespace Jobrocket.FreeListInterleaving
open Library Memory

inductive WorkerPC where
  | idle
  | readNext (job : ℕ)
  | writeNext (job n : ℕ)
  | writeElement (job n : ℕ)
  deriving DecidableEq

/-- The next access of the owner's `free_all_this_thread` call. -/
inductive OwnerPC where
  | idle
  | readEmpty
  | readZero
  | readDecrement
  | writeNext (n : ℕ)
  | readElement (n : ℕ)
  | writeNull (n job : ℕ)
  deriving DecidableEq

/-- A worker begins a call, a worker goes on, the owner begins a call, the owner goes on. -/
inductive Label (τ : Type*) where
  | free (w : τ) (job : ℕ)
  | worker (w : τ)
  | drain
  | owner
  deriving DecidableEq

structure Config (τ : Type*) where
  list : FreeList
  owner : OwnerPC
  workers : τ → WorkerPC

variable {τ : Type*}

def quiescent (fl : FreeList) : Config τ := ⟨fl, .idle, fun _ => .idle⟩

def Config.Returned (c : Config τ) : Prop := c.owner = .idle ∧ ∀ w, c.workers w = .idle

def workerStep (fl : FreeList) : WorkerPC → Option (FreeList × WorkerPC)
  | .idle => none
  | .readNext job => some (fl, .writeNext job fl.next)
  | .writeNext job n => some ({ fl with next := n + 1 }, .writeElement job n)
  | .writeElement job n => some ({ fl with elements := fl.elements.set n job }, .idle)

/-- The accesses of the loop: `empty` reads `next_`, and `pop` reads it twice more. -/
def ownerStep (fl : FreeList) : OwnerPC → Option (FreeList × OwnerPC × List ℕ)
  | .idle => none
  | .readEmpty => some (fl, if fl.empty then .idle else .readZero, [])
  | .readZero =>
    if fl.next = 0 then some (fl, .readEmpty, [nullptr]) else some (fl, .readDecrement, [])
  | .readDecrement => some (fl, .writeNext (fl.next - 1), [])
  | .writeNext n => some ({ fl with next := n }, .readElement n, [])
  | .readElement n => some (fl, .writeNull n (fl.elements.getD n nullptr), [])
  | .writeNull n job => some ({ fl with elements := fl.elements.set n nullptr }, .readEmpty, [job])

variable [DecidableEq τ]

/-- One step of a worker or of the owner. A call begins only where none is in progress. -/
def step : Stepper (Config τ) (Label τ) ℕ
  | c, .free w job =>
    match c.workers w with
    | .idle => some ({ c with workers := Function.update c.workers w (.readNext job) }, [])
    | _ => none
  | c, .worker w =>
    (workerStep c.list (c.workers w)).map fun r =>
      ({ c with list := r.1, workers := Function.update c.workers w r.2 }, [])
  | c, .drain =>
    match c.owner with
    | .idle => some ({ c with owner := .readEmpty }, [])
    | _ => none
  | c, .owner =>
    (ownerStep c.list c.owner).map fun r => ({ c with list := r.1, owner := r.2.1 }, r.2.2)

section Moves

inductive WorkerMove (fl : FreeList) : WorkerPC → FreeList → WorkerPC → Prop
  | readNext (job : ℕ) : WorkerMove fl (.readNext job) fl (.writeNext job fl.next)
  | writeNext (job n : ℕ) :
    WorkerMove fl (.writeNext job n) { fl with next := n + 1 } (.writeElement job n)
  | writeElement (job n : ℕ) :
    WorkerMove fl (.writeElement job n) { fl with elements := fl.elements.set n job } .idle

/-- The moves of the owner, one for each outcome of each access. -/
inductive OwnerMove (fl : FreeList) : OwnerPC → FreeList → OwnerPC → List ℕ → Prop
  | empty (h : fl.next = 0) : OwnerMove fl .readEmpty fl .idle []
  | notEmpty (h : fl.next ≠ 0) : OwnerMove fl .readEmpty fl .readZero []
  | popNull (h : fl.next = 0) : OwnerMove fl .readZero fl .readEmpty [nullptr]
  | readZero (h : fl.next ≠ 0) : OwnerMove fl .readZero fl .readDecrement []
  | readDecrement : OwnerMove fl .readDecrement fl (.writeNext (fl.next - 1)) []
  | writeNext (n : ℕ) : OwnerMove fl (.writeNext n) { fl with next := n } (.readElement n) []
  | readElement (n : ℕ) :
    OwnerMove fl (.readElement n) fl (.writeNull n (fl.elements.getD n nullptr)) []
  | writeNull (n job : ℕ) :
    OwnerMove fl (.writeNull n job) { fl with elements := fl.elements.set n nullptr } .readEmpty
      [job]

theorem workerMove_of_step {fl fl' : FreeList} {pc pc' : WorkerPC}
    (h : workerStep fl pc = some (fl', pc')) : WorkerMove fl pc fl' pc' := by
  cases pc with
  | idle => cases h
  | readNext job => cases h; exact .readNext job
  | writeNext job n => cases h; exact .writeNext job n
  | writeElement job n => cases h; exact .writeElement job n

theorem ownerMove_of_step {fl fl' : FreeList} {pc pc' : OwnerPC} {evs : List ℕ}
    (h : ownerStep fl pc = some (fl', pc', evs)) : OwnerMove fl pc fl' pc' evs := by
  cases pc with
  | idle => cases h
  | readEmpty =>
    by_cases hz : fl.next = 0
    · simp only [ownerStep, FreeList.empty_iff.mpr hz, if_true] at h
      cases h
      exact .empty hz
    · simp only [ownerStep, FreeList.empty_iff, hz, if_false] at h
      cases h
      exact .notEmpty hz
  | readZero =>
    by_cases hz : fl.next = 0
    · simp only [ownerStep, if_pos hz] at h
      cases h
      exact .popNull hz
    · simp only [ownerStep, if_neg hz] at h
      cases h
      exact .readZero hz
  | readDecrement => cases h; exact .readDecrement
  | writeNext n => cases h; exact .writeNext n
  | readElement n => cases h; exact .readElement n
  | writeNull n job => cases h; exact .writeNull n job

inductive Moved (c : Config τ) : Label τ → Config τ → List ℕ → Prop
  | free (w : τ) (job : ℕ) (h : c.workers w = .idle) :
    Moved c (.free w job) { c with workers := Function.update c.workers w (.readNext job) } []
  | worker (w : τ) {fl : FreeList} {pc : WorkerPC} (h : WorkerMove c.list (c.workers w) fl pc) :
    Moved c (.worker w) { c with list := fl, workers := Function.update c.workers w pc } []
  | drain (h : c.owner = .idle) : Moved c .drain { c with owner := .readEmpty } []
  | owner {fl : FreeList} {pc : OwnerPC} {evs : List ℕ} (h : OwnerMove c.list c.owner fl pc evs) :
    Moved c .owner { c with list := fl, owner := pc } evs

theorem moved_of_step {c c' : Config τ} {l : Label τ} {evs : List ℕ}
    (h : step c l = some (c', evs)) : Moved c l c' evs := by
  cases l with
  | free w job =>
    simp only [step] at h
    split at h
    · next hidle => cases h; exact .free w job hidle
    · cases h
  | drain =>
    simp only [step] at h
    split at h
    · next hidle => cases h; exact .drain hidle
    · cases h
  | worker w =>
    obtain ⟨⟨fl, pc⟩, hpc, he⟩ := Option.map_eq_some_iff.mp h
    cases he
    exact .worker w (workerMove_of_step hpc)
  | owner =>
    obtain ⟨⟨fl, pc, evs'⟩, hpc, he⟩ := Option.map_eq_some_iff.mp h
    cases he
    exact .owner (ownerMove_of_step hpc)

end Moves

section Uninterrupted

/-- A `free_job` that nothing interrupts is the list's `push`. -/
theorem exec_free (fl : FreeList) (pc : OwnerPC) (workers : τ → WorkerPC) (w : τ) (job : ℕ)
    (hidle : workers w = .idle) :
    step.exec ⟨fl, pc, workers⟩ (.free w job :: List.replicate 3 (.worker w)) =
      some (⟨fl.push job, pc, workers⟩, []) := by
  have hback : Function.update workers w .idle = workers :=
    hidle ▸ Function.update_eq_self w workers
  simp [Stepper.exec, step, workerStep, FreeList.push, hidle, hback]

theorem exec_turn (fl : FreeList) (workers : τ → WorkerPC) (h : fl.next ≠ 0) :
    step.exec ⟨fl, .readEmpty, workers⟩ (List.replicate 6 .owner) =
      some (⟨fl.pop.2, .readEmpty, workers⟩, [fl.pop.1]) := by
  have hempty : step ⟨fl, .readEmpty, workers⟩ .owner = some (⟨fl, .readZero, workers⟩, []) := by
    simp only [step, ownerStep, FreeList.empty_iff, if_neg h, Option.map_some]
  have hzero : step ⟨fl, .readZero, workers⟩ .owner =
      some (⟨fl, .readDecrement, workers⟩, []) := by
    simp only [step, ownerStep, if_neg h, Option.map_some]
  rw [List.replicate_succ, Stepper.exec_cons hempty, List.replicate_succ, Stepper.exec_cons hzero,
    FreeList.pop, if_neg h]
  rfl

/-- A `free_all_this_thread` that nothing interrupts is the pool's. -/
theorem exec_drain (turns : ℕ) (a : FixedPoolAllocator) (fl : FreeList) (m : Memory)
    (workers : τ → WorkerPC) (h : fl.next = turns) :
    ∃ n, step.exec ⟨fl, .readEmpty, workers⟩ (List.replicate n .owner) =
      some (⟨(JobPool.drain turns a fl m).2.1, .idle, workers⟩,
        (JobPool.drain turns a fl m).2.2.2.map Prod.fst) := by
  induction turns generalizing a fl m with
  | zero =>
    refine ⟨1, ?_⟩
    simp [Stepper.exec, step, ownerStep, FreeList.empty_iff.mpr h, JobPool.drain]
  | succ turns ih =>
    have hne : fl.next ≠ 0 := by omega
    have hnext : fl.pop.2.next = turns := by simp [FreeList.pop, h]
    obtain ⟨b, m', e, hcall⟩ : ∃ b m' e, JobPool.drain (turns + 1) a fl m =
        let r := JobPool.drain turns b fl.pop.2 m'
        (r.1, r.2.1, r.2.2.1, (fl.pop.1, e) :: r.2.2.2) := by
      simp only [JobPool.drain, FreeList.empty_iff, if_neg hne]
      exact ⟨_, _, _, rfl⟩
    obtain ⟨n, hn⟩ := ih b fl.pop.2 m' hnext
    refine ⟨6 + n, ?_⟩
    rw [List.replicate_add, Stepper.exec_append, exec_turn fl workers hne, hcall, Option.bind_some,
      hn]
    rfl

end Uninterrupted

end Jobrocket.FreeListInterleaving
