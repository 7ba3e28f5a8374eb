import Jobrocket.JobPoolRuns
import Jobrocket.Library.Machine

/-! # The pool as lists of blocks

What a thread is given depends only on the order of its chain and of its free list. Taken as
lists, they follow the calls without any bytes, and pools with the same lists give the same
blocks from then on.
-/
namespace Jobrocket.JobPool
open Library Memory FixedPoolAllocator

/-- A thread's blocks: the chain, from the next one on, the free list, oldest first, and the
live jobs. -/
structure Holding where
  chain : List ℕ
  freed : List ℕ
  live : List ℕ
  deriving DecidableEq

namespace Holding

def takeBack (t : Holding) : Holding := ⟨t.freed ++ t.chain, [], t.live⟩

/-- Before an allocation the free list is taken back if the chain is empty. -/
def ready (t : Holding) : Holding := if t.chain = [] then t.takeBack else t

def allocate (t : Holding) : Option ℕ × Holding :=
  match t.ready.chain with
  | [] => (none, t.ready)
  | c :: cs => (some c, ⟨cs, t.ready.freed, c :: t.live⟩)

def free (t : Holding) (job : ℕ) : Holding :=
  if job ∈ t.live then ⟨t.chain, t.freed ++ [job], t.live.erase job⟩ else t

variable {t : Holding} {c : ℕ} {cs : List ℕ}

theorem allocate_none (hchain : t.chain = []) (hfreed : t.freed = []) :
    t.allocate = (none, ⟨[], [], t.live⟩) := by
  simp only [allocate, ready, takeBack, hchain, hfreed, if_true, List.append_nil]

theorem allocate_chain (hchain : t.chain = c :: cs) :
    t.allocate = (some c, ⟨cs, t.freed, c :: t.live⟩) := by
  simp only [allocate, ready, hchain, reduceCtorEq, if_false]

theorem allocate_freed (hchain : t.chain = []) (hfreed : t.freed = c :: cs) :
    t.allocate = (some c, ⟨cs, [], c :: t.live⟩) := by
  simp only [allocate, ready, takeBack, hchain, hfreed, if_true, List.append_nil]

theorem free_live (t : Holding) (job : ℕ) : (t.free job).live = t.live.erase job := by
  rw [free]
  split
  · rfl
  · next h => exact (List.erase_of_not_mem h).symm

end Holding

/-- The pool's calls on the lists. An allocation answers with its thread and the block, or none. -/
def holdings : Machine (ℕ → Holding) Call (List (ℕ × Option ℕ))
  | A, .allocate i _ => ([(i, (A i).allocate.1)], Function.update A i (A i).allocate.2)
  | A, .free job => ([], fun i => (A i).free job)
  | A, .freeAll i => ([], Function.update A i (A i).takeBack)

/-- What the allocations gave: a block, or null. -/
def given (es : List Event) : List (ℕ × Option ℕ) :=
  es.filterMap fun
    | .allocated i job => some (i, some job)
    | .refused i _ => some (i, none)
    | _ => none

/-- A call by a thread of the pool, of a callable that fits, or for a job that is live. -/
def Allowed (threads : ℕ) (A : ℕ → Holding) : Call → Prop
  | .allocate i function => i < threads ∧ function.length ≤ Job.functionRoom
  | .free job => ∃ i, job ∈ (A i).live
  | .freeAll i => i < threads

/-- The pool's chains and free lists are these lists. -/
structure Models (capacity : ℕ) (bases : List ℕ) (pool : JobPool) (m : Memory)
    (A : ℕ → Holding) : Prop where
  self_lt : pool.self < 2 ^ 64
  allocators_length : pool.allocators.length = bases.length
  freeLists_length : pool.freeLists.length = bases.length
  shelf : ∀ i (hi : i < bases.length),
    ShelfOf capacity bases[i] i pool m (A i).chain (A i).live
  entries : ∀ i, i < bases.length → (pool.freeList i).entries = (A i).freed
  live_nil : ∀ i, bases.length ≤ i → (A i).live = []

section Calls
variable {capacity : ℕ} {bases : List ℕ} {pool pool' : JobPool} {m m' : Memory}
  {A : ℕ → Holding} {i : ℕ}

theorem Models.inv (h : Models capacity bases pool m A) :
    Inv capacity bases pool m fun i => (A i).live :=
  ⟨h.self_lt, h.allocators_length, h.freeLists_length, fun i hi => ⟨_, h.shelf i hi⟩, h.live_nil⟩

/-- The frame rule: a call of thread `i` that writes to its own array only. -/
theorem Models.update (h : Models capacity bases pool m A) (hplace : Placement capacity bases)
    (hi : i < bases.length) {t : Holding} (honly : OnlyThread i pool pool')
    (hsame : ∀ lo hi', hi' ≤ bases[i] ∨ bases[i] + Job.size * capacity ≤ lo → m.Same m' lo hi')
    (hshelf : ShelfOf capacity bases[i] i pool' m' t.chain t.live)
    (hentries : (pool'.freeList i).entries = t.freed) :
    Models capacity bases pool' m' (Function.update A i t) := by
  constructor
  case self_lt => exact honly.self_eq ▸ h.self_lt
  case allocators_length => exact honly.allocators_length.trans h.allocators_length
  case freeLists_length => exact honly.freeLists_length.trans h.freeLists_length
  case shelf =>
    intro j hj
    by_cases hji : j = i
    · subst hji
      rwa [Function.update_self]
    · rw [Function.update_of_ne hji]
      exact hplace.shelf_other hi hj hji honly hsame (h.shelf j hj)
  case entries =>
    intro j hj
    by_cases hji : j = i
    · subst hji
      rwa [Function.update_self]
    · rw [Function.update_of_ne hji, (honly.other j hji).2]
      exact h.entries j hj
  case live_nil =>
    intro j hj
    rw [Function.update_of_ne (by omega)]
    exact h.live_nil j hj

theorem Models.allocate (h : Models capacity bases pool m A) (hplace : Placement capacity bases)
    (hi : i < bases.length) {function : List UInt8} (hfn : function.length ≤ Job.functionRoom) :
    ∃ result pool' m' calls, pool.allocateJob m i function = (result, pool', m', calls) ∧
      Models capacity bases pool' m' (Function.update A i (A i).allocate.2) ∧
      ((∃ e, result = .error e ∧ (A i).allocate.1 = none ∧
          (A i).allocate.2.live = (A i).live) ∨
        ∃ c, result = .ok c ∧ (A i).allocate.1 = some c ∧
          (A i).allocate.2.live = c :: (A i).live) := by
  have hself := h.self_lt
  have hcount := hplace.count_lt
  have hfits := hplace.fits _ (List.getElem_mem hi)
  have hshelf := h.shelf i hi
  have hentries := h.entries i hi
  obtain ⟨result, pool', m', calls, hcall, honly, -, hcases⟩ :=
    allocateJob_spec (by omega) (by omega) (hplace.nonnull _ (List.getElem_mem hi)) (by omega)
      (by rw [h.allocators_length]; exact hi) (by rw [h.freeLists_length]; exact hi) hfn hshelf
  refine ⟨result, pool', m', calls, hcall, ?_⟩
  rcases hcases with ⟨hres, -, hall, hshelf', rfl⟩ |
    ⟨c, cs', m₁, hres, -, rfl, hshelf', hlists, hsame⟩
  · obtain ⟨hchain, hnone⟩ := hshelf.exhausted_iff.mp hall
    rw [Holding.allocate_none hchain (hentries.symm.trans hnone)]
    exact ⟨h.update hplace hi honly (fun _ _ _ => .refl _ _ _) hshelf'
      (hshelf'.exhausted_iff.mp hall).2, Or.inl ⟨_, hres, rfl, rfl⟩⟩
  · have hcb := blocks_bounds (hshelf'.mem_blocks (p := c) (by simp))
    have hframe : ∀ lo hi', hi' ≤ bases[i] ∨ bases[i] + Job.size * capacity ≤ lo →
        m.Same (construct m₁ c pool.self i function) lo hi' := by
      intro lo hi' hout
      exact .trans (hsame lo hi' (h.inv.entries_outside hi hout)) (construct_same hfn (by omega))
    rcases hlists with ⟨hchain, hfreed, hnone⟩ | ⟨hchain, hlist⟩
    · rw [Holding.allocate_freed hchain (hentries.symm.trans hfreed)]
      exact ⟨h.update hplace hi honly hframe hshelf' hnone, Or.inr ⟨c, hres, rfl, rfl⟩⟩
    · rw [Holding.allocate_chain hchain]
      exact ⟨h.update hplace hi honly hframe hshelf' ((congrArg _ hlist).trans hentries),
        Or.inr ⟨c, hres, rfl, rfl⟩⟩

theorem Models.freeAll (h : Models capacity bases pool m A) (hplace : Placement capacity bases)
    (hi : i < bases.length) :
    ∃ pool' m' calls, pool.freeAllThisThread m i = (pool', m', calls) ∧
      Models capacity bases pool' m' (Function.update A i (A i).takeBack) := by
  have hfits := hplace.fits _ (List.getElem_mem hi)
  obtain ⟨pool', m', calls, hcall, honly, hshelf', hnone, -, hsame⟩ :=
    freeAllThisThread_spec (hplace.nonnull _ (List.getElem_mem hi)) (by omega)
      (by rw [h.allocators_length]; exact hi) (by rw [h.freeLists_length]; exact hi) (h.shelf i hi)
  rw [h.entries i hi] at hshelf'
  refine ⟨pool', m', calls, hcall, h.update hplace hi honly (fun lo hi' hout => ?_) hshelf' hnone⟩
  exact hsame lo hi' (h.inv.entries_outside hi hout)

theorem Models.free (h : Models capacity bases pool m A) (hplace : Placement capacity bases)
    {p : ℕ} (hp : p ∈ (A i).live) :
    Models capacity bases (pool.freeJob m p) m fun j => (A j).free p := by
  have hi := h.inv.lt_of_mem hp
  obtain ⟨honly, hentries, hshelf⟩ :=
    freeJob_spec (by rw [h.freeLists_length]; exact hi) (h.shelf i hi) hp
  have hfree : (fun j => (A j).free p) = Function.update A i ((A i).free p) := by
    funext j
    by_cases hji : j = i
    · rw [hji, Function.update_self]
    · rw [Function.update_of_ne hji, Holding.free, if_neg]
      exact fun hq => hji (h.inv.owner_unique hplace hq hp)
  have hmine : (A i).free p = ⟨(A i).chain, (A i).freed ++ [p], (A i).live.erase p⟩ := if_pos hp
  rw [hfree, hmine]
  exact h.update hplace hi honly (fun _ _ _ => .refl _ _ _) hshelf
    (hentries.trans (congrArg (· ++ [p]) (h.entries i hi)))

end Calls

section Runs
variable {capacity : ℕ} {bases : List ℕ} {pool : JobPool} {m : Memory} {A : ℕ → Holding}

theorem given_append (es fs : List Event) : given (es ++ fs) = given es ++ given fs :=
  List.filterMap_append

theorem given_recycledAll (calls : List (ℕ × Option Error)) : given (recycledAll calls) = [] := by
  induction calls with
  | nil => rfl
  | cons call calls ih => exact ih

theorem live_update {i : ℕ} (A : ℕ → Holding) (t : Holding) :
    (fun j => (Function.update A i t j).live) =
      Function.update (fun j => (A j).live) i t.live := by
  funext j
  by_cases hji : j = i
  · rw [hji, Function.update_self, Function.update_self]
  · rw [Function.update_of_ne hji, Function.update_of_ne hji]

/-- One call of the pool gives what the lists give, and the lists follow it. -/
theorem Models.step (h : Models capacity bases pool m A) (hplace : Placement capacity bases)
    {call : Call} (hallowed : Allowed bases.length A call) :
    ∃ pool' m' es, JobPool.step (pool, m) call = some ((pool', m'), es) ∧
      given es = (holdings A call).1 ∧
      es.foldl record (fun i => (A i).live) = (fun i => ((holdings A call).2 i).live) ∧
      Models capacity bases pool' m' (holdings A call).2 := by
  cases call with
  | allocate i function =>
    obtain ⟨hi, hfn⟩ := hallowed
    obtain ⟨result, pool', m', calls, hcall, hmodels, hcases⟩ := h.allocate hplace hi hfn
    refine ⟨pool', m', _, by simp only [JobPool.step, hcall]; rfl, ?_, ?_, hmodels⟩
    · rw [given_append, given_recycledAll, List.nil_append]
      rcases hcases with ⟨e, rfl, hnone, -⟩ | ⟨c, rfl, hsome, -⟩
      · exact congrArg (fun b => [(i, b)]) hnone.symm
      · exact congrArg (fun b => [(i, b)]) hsome.symm
    · rw [List.foldl_append, foldl_record_recycledAll, holdings, live_update]
      rcases hcases with ⟨e, rfl, -, hlive⟩ | ⟨c, rfl, -, hlive⟩
      · exact ((congrArg _ hlive).trans (Function.update_eq_self i _)).symm
      · exact (congrArg (Function.update _ i) hlive).symm
  | free job =>
    obtain ⟨i, hi⟩ := hallowed
    refine ⟨pool.freeJob m job, m, _, rfl, rfl, ?_, h.free hplace hi⟩
    funext j
    exact (Holding.free_live (A j) job).symm
  | freeAll i =>
    obtain ⟨pool', m', calls, hcall, hmodels⟩ := h.freeAll hplace hallowed
    refine ⟨pool', m', _, by simp only [JobPool.step, hcall], given_recycledAll calls, ?_,
      hmodels⟩
    rw [foldl_record_recycledAll, holdings, live_update]
    exact (Function.update_eq_self i _).symm

/-- The lists follow every run of allowed calls. -/
theorem Models.exec (hplace : Placement capacity bases) {calls : List Call}
    (h : Models capacity bases pool m A)
    (hallowed : ∀ pre call, pre ++ [call] <+: calls →
      Allowed bases.length (holdings.after A pre) call) :
    ∃ pool' m' es, JobPool.step.exec (pool, m) calls = some ((pool', m'), es) ∧
      given es = (holdings.results A calls).flatten ∧
      es.foldl record (fun i => (A i).live) = (fun i => (holdings.after A calls i).live) ∧
      Models capacity bases pool' m' (holdings.after A calls) := by
  induction calls generalizing pool m A with
  | nil => exact ⟨pool, m, [], rfl, rfl, rfl, h⟩
  | cons call calls ih =>
    obtain ⟨pool₁, m₁, es, hstep, hgiven, hlive, hmodels⟩ :=
      h.step hplace (hallowed [] call (List.prefix_append [call] calls))
    obtain ⟨pool₂, m₂, fs, hexec, hgiven', hlive', hmodels'⟩ := ih hmodels fun pre next hpre =>
      hallowed (call :: pre) next (List.prefix_cons_inj call |>.mpr hpre)
    refine ⟨pool₂, m₂, es ++ fs, ?_, ?_, ?_, hmodels'⟩
    · rw [Stepper.exec_cons hstep, hexec]
      rfl
    · rw [given_append, hgiven, hgiven', Machine.results_cons, List.flatten_cons]
    · rw [List.foldl_append, hlive, hlive', Machine.after_cons]

/-- The lists of a new pool. -/
def fullHoldings (capacity : ℕ) (bases : List ℕ) (i : ℕ) : Holding :=
  ⟨blocks (bases.getD i nullptr) Job.size capacity, [], []⟩

theorem fullHoldings_eq {i : ℕ} (hi : i < bases.length) :
    fullHoldings capacity bases i = ⟨blocks bases[i] Job.size capacity, [], []⟩ := by
  simp [fullHoldings, List.getD_eq_getElem?_getD, hi]

theorem models_create (hplace : Placement capacity bases) {self : ℕ} (hself : self < 2 ^ 64)
    (m : Memory) :
    Models capacity bases (create self capacity bases m).1 (create self capacity bases m).2
      (fullHoldings capacity bases) := by
  have hinv := inv_create hplace hself m
  refine ⟨hself, hinv.allocators_length, hinv.freeLists_length, fun i hi => ?_, fun i hi => ?_,
    fun _ _ => rfl⟩
  · rw [fullHoldings_eq hi]
    exact shelf_create hplace self m hi
  · rw [freeList_create self m hi]
    rfl

/-- The calls that the pool relies on are the ones that are allowed on the lists. -/
theorem allowed_of_usage (hplace : Placement capacity bases) {self : ℕ} (hself : self < 2 ^ 64)
    {m₀ : Memory} {calls : List Call} (husage : BlockUsage capacity bases self m₀ calls) :
    ∀ pre call, pre ++ [call] <+: calls →
      Allowed bases.length (holdings.after (fullHoldings capacity bases) pre) call := by
  refine prefix_induction (Q := fun done => ∀ pre call, pre ++ [call] <+: done →
    Allowed bases.length (holdings.after (fullHoldings capacity bases) pre) call)
    (fun pre call h => by simp at h) ?_ List.prefix_rfl
  intro done next hnext ih pre call hpre
  rcases concat_prefix_concat_cases hpre with hpre | ⟨rfl, rfl⟩
  · exact ih pre call hpre
  · obtain ⟨pool', m', es, hexec, -, hlive, -⟩ := (models_create hplace hself m₀).exec hplace ih
    have hmem := hnext.subset (List.mem_append_right _ (List.mem_singleton_self call))
    cases call with
    | allocate i function => exact husage.allocates i function hmem
    | free job =>
      obtain ⟨i, hi⟩ := husage.frees pre job hnext _ es hexec
      exact ⟨i, (congrFun hlive i) ▸ hi⟩
    | freeAll i => exact husage.freeAlls i hmem

end Runs

end Jobrocket.JobPool
