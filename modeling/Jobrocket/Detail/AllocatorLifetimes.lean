import Jobrocket.Detail.AllocatorCalls
import Jobrocket.Library.Interleaving
import Jobrocket.Library.Keepers

/-! # Allocators that are made, moved and destroyed

Any number of allocators live in one memory. Both moves swap the members, so a pool and
its blocks go where the allocator is moved, what was there before goes the other way, and
an array is deleted with the object that has it then. An object is named by its address.
-/
namespace Jobrocket.FixedPoolAllocator
open Library Memory

/-- The five swaps of the move constructor and of the move assignment. -/
def swap (a other : FixedPoolAllocator) : FixedPoolAllocator × FixedPoolAllocator :=
  let (a, other) : FixedPoolAllocator × FixedPoolAllocator :=
    ({ a with memory := other.memory }, { other with memory := a.memory })
  let (a, other) : FixedPoolAllocator × FixedPoolAllocator :=
    ({ a with next := other.next }, { other with next := a.next })
  let (a, other) : FixedPoolAllocator × FixedPoolAllocator :=
    ({ a with blockSize := other.blockSize }, { other with blockSize := a.blockSize })
  let (a, other) : FixedPoolAllocator × FixedPoolAllocator :=
    ({ a with maxBlocks := other.maxBlocks }, { other with maxBlocks := a.maxBlocks })
  ({ a with blocksInitialized := other.blocksInitialized },
    { other with blocksInitialized := a.blocksInitialized })

theorem swap_eq (a other : FixedPoolAllocator) : a.swap other = (other, a) := rfl

/-- The array that the destructor deletes, if there is one. -/
def array? (a : FixedPoolAllocator) : Option ℕ := if a.memory = nullptr then none else some a.memory

/-- The objects that live, and the memory. -/
structure Family (ι : Type*) where
  objects : ι → Option FixedPoolAllocator
  memory : Memory

/-- The special members and the calls; `array` is what `new` returns. -/
inductive Op (ι : Type*) where
  | default (o : ι)
  | construct (o : ι) (blockSize maxBlocks array : ℕ)
  | moveConstruct (o other : ι)
  | moveAssign (o other : ι)
  | destroy (o : ι)
  | call (o : ι) (call : Call)
  deriving DecidableEq

inductive Event (ι : Type*) where
  | newed (array : ℕ)
  | deleted (array : ℕ)
  | answered (o : ι) (answer : Answer)
  deriving DecidableEq

variable {ι : Type*} [DecidableEq ι]

/-- One operation. Objects are constructed where none is, and used and destroyed where one is. -/
def step : Stepper (Family ι) (Op ι) (Event ι)
  | f, .default o =>
    match f.objects o with
    | some _ => none
    | none => some ({ f with objects := Function.update f.objects o (some {}) }, [])
  | f, .construct o blockSize maxBlocks array =>
    match f.objects o with
    | some _ => none
    | none =>
      let (a, m) := create array blockSize maxBlocks f.memory
      some (⟨Function.update f.objects o (some a), m⟩, [.newed array])
  | f, .moveConstruct o other =>
    match f.objects o, f.objects other with
    | none, some b =>
      let (a, b) := swap {} b
      let objects := Function.update (Function.update f.objects o (some a)) other (some b)
      some ({ f with objects := objects }, [])
    | _, _ => none
  | f, .moveAssign o other =>
    match f.objects o, f.objects other with
    | some a, some b =>
      let (a, b) := swap a b
      let objects := Function.update (Function.update f.objects o (some a)) other (some b)
      some ({ f with objects := objects }, [])
    | _, _ => none
  | f, .destroy o =>
    match f.objects o with
    | some a =>
      some ({ f with objects := Function.update f.objects o none }, a.array?.toList.map .deleted)
    | none => none
  | f, .call o call =>
    match f.objects o with
    | some a =>
      let (answer, a, m) := machine (a, f.memory) call
      some (⟨Function.update f.objects o (some a), m⟩, [.answered o answer])
    | none => none

/-- What each operation can do. -/
inductive Done (f : Family ι) : Op ι → Family ι → List (Event ι) → Prop
  | default (o : ι) (ho : f.objects o = none) :
    Done f (.default o) { f with objects := Function.update f.objects o (some {}) } []
  | construct (o : ι) (size count array : ℕ) (ho : f.objects o = none) :
    Done f (.construct o size count array)
      ⟨Function.update f.objects o (some (create array size count f.memory).1),
        (create array size count f.memory).2⟩ [.newed array]
  | moveConstruct (o other : ι) {b : FixedPoolAllocator} (ho : f.objects o = none)
    (hother : f.objects other = some b) :
    Done f (.moveConstruct o other) { f with
      objects := Function.update (Function.update f.objects o (some b)) other (some {}) } []
  | moveAssign (o other : ι) {a b : FixedPoolAllocator} (ho : f.objects o = some a)
    (hother : f.objects other = some b) :
    Done f (.moveAssign o other) { f with
      objects := Function.update (Function.update f.objects o (some b)) other (some a) } []
  | destroy (o : ι) {a : FixedPoolAllocator} (ho : f.objects o = some a) :
    Done f (.destroy o) { f with objects := Function.update f.objects o none }
      (a.array?.toList.map .deleted)
  | call (o : ι) (c : Call) {a : FixedPoolAllocator} (ho : f.objects o = some a) :
    Done f (.call o c)
      ⟨Function.update f.objects o (some (machine (a, f.memory) c).2.1),
        (machine (a, f.memory) c).2.2⟩ [.answered o (machine (a, f.memory) c).1]

theorem done_of_step {f f' : Family ι} {op : Op ι} {es : List (Event ι)}
    (h : step f op = some (f', es)) : Done f op f' es := by
  cases op with
  | default o =>
    cases ho : f.objects o with
    | some a => simp only [step, ho, reduceCtorEq] at h
    | none =>
      simp only [step, ho] at h
      cases h
      exact .default o ho
  | construct o size count array =>
    cases ho : f.objects o with
    | some a => simp only [step, ho, reduceCtorEq] at h
    | none =>
      simp only [step, ho] at h
      cases h
      exact .construct o size count array ho
  | moveConstruct o other =>
    cases ho : f.objects o with
    | some a => simp only [step, ho, reduceCtorEq] at h
    | none =>
      cases hother : f.objects other with
      | none => simp only [step, ho, hother, reduceCtorEq] at h
      | some b =>
        simp only [step, ho, hother, swap_eq] at h
        cases h
        exact .moveConstruct o other ho hother
  | moveAssign o other =>
    cases ho : f.objects o with
    | none => simp only [step, ho, reduceCtorEq] at h
    | some a =>
      cases hother : f.objects other with
      | none => simp only [step, ho, hother, reduceCtorEq] at h
      | some b =>
        simp only [step, ho, hother, swap_eq] at h
        cases h
        exact .moveAssign o other ho hother
  | destroy o =>
    cases ho : f.objects o with
    | none => simp only [step, ho, reduceCtorEq] at h
    | some a =>
      simp only [step, ho] at h
      cases h
      exact .destroy o ho
  | call o c =>
    cases ho : f.objects o with
    | none => simp only [step, ho, reduceCtorEq] at h
    | some a =>
      simp only [step, ho] at h
      cases h
      exact .call o c ho

/-- A stack of blocks in an array; the pool of a default-constructed allocator has none. -/
structure Pool where
  base : ℕ := nullptr
  size : ℕ := 0
  count : ℕ := 0
  stock : Stock ℕ := .full []

namespace Pool

def full (base size count : ℕ) : Pool := ⟨base, size, count, .full (blocks base size count)⟩

def stop (P : Pool) : ℕ := P.base + P.size * P.count

def array? (P : Pool) : Option ℕ := if P.base = nullptr then none else some P.base

def call (P : Pool) (call : Call) : Answer × Pool :=
  let (answer, stock) := stack P.base P.size P.count P.stock call
  (answer, { P with stock := stock })

end Pool

/-- The same with pools that are handed on whole. -/
def poolStep : Stepper (ι → Option Pool) (Op ι) (Event ι)
  | pools, .default o =>
    match pools o with
    | some _ => none
    | none => some (Function.update pools o (some {}), [])
  | pools, .construct o blockSize maxBlocks array =>
    match pools o with
    | some _ => none
    | none =>
      some (Function.update pools o (some (.full array blockSize maxBlocks)), [.newed array])
  | pools, .moveConstruct o other =>
    match pools o, pools other with
    | none, some Q => some (Function.update (Function.update pools o (some Q)) other (some {}), [])
    | _, _ => none
  | pools, .moveAssign o other =>
    match pools o, pools other with
    | some P, some Q => some (Function.update (Function.update pools o (some Q)) other (some P), [])
    | _, _ => none
  | pools, .destroy o =>
    match pools o with
    | some P => some (Function.update pools o none, P.array?.toList.map .deleted)
    | none => none
  | pools, .call o call =>
    match pools o with
    | some P =>
      let (answer, P) := P.call call
      some (Function.update pools o (some P), [.answered o answer])
    | none => none

omit [DecidableEq ι] in
/-- What `new` returns is in no array that is in use, and clients keep to the blocks that
they hold of a pool. -/
def Op.Allowed (pools : ι → Option Pool) : Op ι → Prop
  | .construct _ blockSize maxBlocks array =>
    8 ≤ blockSize ∧ array ≠ nullptr ∧ array + blockSize * maxBlocks < 256 ^ 8 ∧
      ∀ o P, pools o = some P →
        P.base ≠ array ∧ (P.stop ≤ array ∨ array + blockSize * maxBlocks ≤ P.base)
  | .call o c => ∀ P, pools o = some P → FixedPoolAllocator.Allowed P.size P.stock c
  | _ => True

section Frame
variable {base size count lo hi : ℕ} {a : FixedPoolAllocator} {m m' : Memory} {t : Stock ℕ}
variable {c : Call}

theorem Represents.reset_eq {cs : List ℕ} (h : Represents base size count a m cs) :
    a.reset m = create base size count m := by
  simp only [FixedPoolAllocator.reset, create, FixedPoolAllocator.stop, h.memory_eq, h.blockSize_eq,
    h.maxBlocks_eq]

/-- A call writes nothing outside the array. -/
theorem Refines.same_call (h : Refines base size count (a, m) t) (hsize : 8 ≤ size)
    (hallowed : Allowed size t c) (hout : hi ≤ base ∨ base + size * count ≤ lo) :
    m.Same (machine (a, m) c).2.2 lo hi := by
  cases c with
  | allocate => exact .refl m lo hi
  | free data =>
    have hdata := blocks_bounds (h.stock.mem_held hallowed)
    rcases a.free_cases data with ⟨a', hok⟩ | ⟨e, herror⟩
    · simp only [machine, hok]
      exact same_store (by omega)
    · simp only [machine, herror]
      exact .refl m lo hi
  | reset =>
    have hreset := h.chain.reset_eq
    dsimp only at hreset
    rw [machine, hreset]
    exact create_same hsize m hout
  | write x bytes =>
    obtain ⟨p, hp, hlo, hhi⟩ := hallowed
    have hdata := blocks_bounds (h.stock.mem_held hp)
    exact same_storeBytes (by omega)

end Frame

namespace Pool
variable {a : FixedPoolAllocator} {m m' : Memory} {P : Pool} {c : Call} {lo hi : ℕ}

/-- An array that `new` may return and that has room for the links, or none. -/
def Sized (P : Pool) : Prop :=
  8 ≤ P.size ∧ P.base ≠ nullptr ∧ P.stop < 256 ^ 8 ∨ P = { stock := P.stock }

/-- The allocator is over the array, and its chain is the stack. -/
structure Holds (m : Memory) (a : FixedPoolAllocator) (P : Pool) : Prop where
  sized : P.Sized
  refines : Refines P.base P.size P.count (a, m) P.stock

theorem holds_default (m : Memory) : Holds m {} {} := by
  refine ⟨Or.inr rfl, ?_, Stock.of_full _⟩
  constructor
  case memory_eq => rfl
  case blockSize_eq => rfl
  case maxBlocks_eq => rfl
  case linked => trivial
  case next_lt => exact Nat.pow_pos (Nat.succ_pos _)
  case count_eq => rfl
  case mem_blocks => exact nofun

theorem holds_full {base size count : ℕ} (hsize : 8 ≤ size) (hbase : base ≠ nullptr)
    (hfits : base + size * count < 256 ^ 8) (m : Memory) :
    Holds (create base size count m).2 (create base size count m).1 (full base size count) :=
  ⟨Or.inl ⟨hsize, hbase, hfits⟩, refines_create hsize hfits m⟩

theorem Holds.array?_eq (h : Holds m a P) : a.array? = P.array? := by
  rw [FixedPoolAllocator.array?, array?, h.refines.chain.memory_eq]

theorem Holds.nothing (h : Holds m a P) (hnone : P = { stock := P.stock }) :
    P.stock.waiting = [] ∧ P.stock.held = [] := by
  have hstock := h.refines.stock
  rw [hnone] at hstock
  exact List.append_eq_nil_iff.mp (List.perm_nil.mp hstock)

/-- Other writes than those into the array do not matter. -/
theorem Holds.transport (h : Holds m a P) (hsame : m.Same m' P.base P.stop) : Holds m' a P := by
  refine ⟨h.sized, h.refines.chain.transport ?_, h.refines.stock⟩
  intro p hp
  rcases h.sized with ⟨hsize, -, -⟩ | hnone
  · obtain ⟨hlo, hhi⟩ := blocks_bounds (h.refines.stock.mem_waiting hp)
    refine hsame.mono hlo (le_trans ?_ hhi)
    omega
  · rw [(h.nothing hnone).1] at hp
    cases hp

theorem Holds.call (h : Holds m a P) (hallowed : Allowed P.size P.stock c) :
    (machine (a, m) c).1 = (P.call c).1 ∧
      Holds (machine (a, m) c).2.2 (machine (a, m) c).2.1 (P.call c).2 ∧
        ∀ lo hi, hi ≤ P.base ∨ P.stop ≤ lo → m.Same (machine (a, m) c).2.2 lo hi := by
  rcases h.sized with ⟨hsize, hbase, hfits⟩ | hnone
  · obtain ⟨hanswer, hrefines⟩ := machine_simulates_stack hsize hbase hfits (a, m) P.stock c
      h.refines hallowed
    refine ⟨hanswer, ⟨Or.inl ⟨hsize, hbase, hfits⟩, hrefines⟩, ?_⟩
    intro lo hi hout
    exact h.refines.same_call hsize hallowed hout
  · obtain ⟨hwaiting, hheld⟩ := h.nothing hnone
    obtain ⟨base, size, count, stock⟩ := P
    obtain ⟨rfl, rfl, rfl, -⟩ := Pool.mk.inj hnone
    cases c with
    | allocate =>
      obtain ⟨hanswer, hrefines⟩ := h.refines.allocate
      exact ⟨hanswer, ⟨Or.inr rfl, hrefines⟩, fun lo hi _ => .refl m lo hi⟩
    | free data =>
      have hdata : data ∈ stock.held := hallowed
      rw [hheld] at hdata
      cases hdata
    | reset =>
      have hreset : machine (a, m) .reset = (.done, {}, m) := by
        rw [machine, h.refines.chain.reset_eq]
        rfl
      rw [hreset]
      exact ⟨rfl, holds_default m, fun lo hi _ => .refl m lo hi⟩
    | write x bytes =>
      obtain ⟨p, hp, -⟩ := hallowed
      rw [hheld] at hp
      cases hp

end Pool

/-- Every allocator holds its pool, and no two pools share bytes. -/
structure Tracks (f : Family ι) (pools : ι → Option Pool) : Prop where
  live : ∀ o, f.objects o = none ↔ pools o = none
  holds : ∀ o a P, f.objects o = some a → pools o = some P → P.Holds f.memory a
  apart : ∀ o k P Q, o ≠ k → pools o = some P → pools k = some Q →
    P.stop ≤ Q.base ∨ Q.stop ≤ P.base

section Tracks
variable {f f' : Family ι} {pools : ι → Option Pool} {o : ι} {a : FixedPoolAllocator} {P : Pool}

omit [DecidableEq ι] in
theorem Tracks.pools_some (h : Tracks f pools) (ho : f.objects o = some a) :
    ∃ P, pools o = some P ∧ P.Holds f.memory a := by
  obtain ⟨P, hP⟩ := Option.ne_none_iff_exists'.mp (mt (h.live o).mpr (by rw [ho]; exact nofun))
  exact ⟨P, hP, h.holds o a P ho hP⟩

omit [DecidableEq ι] in
theorem tracks_start (m : Memory) : Tracks (⟨fun _ => none, m⟩ : Family ι) fun _ => none :=
  ⟨fun _ => iff_of_true rfl rfl, nofun, nofun⟩

omit [DecidableEq ι] in
/-- The objects are named otherwise. -/
theorem Tracks.comp (h : Tracks f pools) (e : ι ≃ ι) :
    Tracks { f with objects := f.objects ∘ e } (pools ∘ e) where
  live o := h.live (e o)
  holds o := h.holds (e o)
  apart o k P Q hok := h.apart (e o) (e k) P Q (e.injective.ne hok)

theorem Tracks.update (h : Tracks f pools) {m : Memory} (hholds : P.Holds m a)
    (hsame : ∀ k Q, k ≠ o → pools k = some Q → f.memory.Same m Q.base Q.stop)
    (hapart : ∀ k Q, k ≠ o → pools k = some Q → P.stop ≤ Q.base ∨ Q.stop ≤ P.base) :
    Tracks ⟨Function.update f.objects o (some a), m⟩ (Function.update pools o (some P)) := by
  constructor
  case live =>
    intro k
    by_cases hk : k = o
    · subst hk
      simp only [Function.update_self, reduceCtorEq]
    · simp only [Function.update_of_ne hk]
      exact h.live k
  case holds =>
    intro k b Q hb hQ
    by_cases hk : k = o
    · subst hk
      simp only [Function.update_self, Option.some.injEq] at hb hQ
      subst hb hQ
      exact hholds
    · simp only [Function.update_of_ne hk] at hb hQ
      exact (h.holds k b Q hb hQ).transport (hsame k Q hk hQ)
  case apart =>
    intro k l Q R hkl hQ hR
    by_cases hk : k = o
    · subst hk
      rw [Function.update_self] at hQ
      rw [Function.update_of_ne hkl.symm] at hR
      cases hQ
      exact hapart l R hkl.symm hR
    · rw [Function.update_of_ne hk] at hQ
      by_cases hl : l = o
      · subst hl
        rw [Function.update_self] at hR
        cases hR
        exact (hapart k Q hk hQ).symm
      · rw [Function.update_of_ne hl] at hR
        exact h.apart k l Q R hkl hQ hR

theorem Tracks.destroy (h : Tracks f pools) (o : ι) :
    Tracks { f with objects := Function.update f.objects o none }
      (Function.update pools o none) := by
  have hpools : ∀ k Q, Function.update pools o none k = some Q → k ≠ o ∧ pools k = some Q := by
    intro k Q hQ
    by_cases hk : k = o
    · subst hk
      rw [Function.update_self] at hQ
      cases hQ
    · rw [Function.update_of_ne hk] at hQ
      exact ⟨hk, hQ⟩
  constructor
  case live =>
    intro k
    by_cases hk : k = o
    · subst hk
      simp only [Function.update_self]
    · simp only [Function.update_of_ne hk]
      exact h.live k
  case holds =>
    intro k b Q hb hQ
    obtain ⟨hk, hQ⟩ := hpools k Q hQ
    simp only [Function.update_of_ne hk] at hb
    exact h.holds k b Q hb hQ
  case apart =>
    exact fun k l Q R hkl hQ hR => h.apart k l Q R hkl (hpools k Q hQ).2 (hpools l R hR).2

theorem Tracks.default (h : Tracks f pools) (o : ι) :
    Tracks { f with objects := Function.update f.objects o (some {}) }
      (Function.update pools o (some {})) := by
  refine h.update (Pool.holds_default f.memory) (fun _ _ _ _ => .refl _ _ _) ?_
  intro k Q _ _
  exact Or.inl (Nat.zero_le _)

theorem update_eq_comp_swap {X : Type*} {g : ι → Option X} {i j : ι} {x y : X} (hi : g i = some x)
    (hj : g j = some y) :
    Function.update (Function.update g i (some y)) j (some x) = g ∘ Equiv.swap j i := by
  rw [Equiv.comp_swap_eq_update, hi, hj]

/-- A move construction is a default construction and a swap. -/
theorem update_eq_comp_default {X : Type*} {g : ι → Option X} {i j : ι} {x y : X}
    (hi : g i = none) (hj : g j = some y) :
    Function.update (Function.update g i (some y)) j (some x) =
      Function.update g i (some x) ∘ Equiv.swap j i := by
  have hne : j ≠ i := fun hji => by rw [hji, hi] at hj; cases hj
  have hj' : Function.update g i (some x) j = some y := by rwa [Function.update_of_ne hne]
  rw [← update_eq_comp_swap (Function.update_self i (some x) g) hj', Function.update_idem]

/-- What the code does the pools do, with the same events. -/
theorem Tracks.step (h : Tracks f pools) {op : Op ι} {es : List (Event ι)}
    (hallowed : op.Allowed pools) (hdone : Done f op f' es) :
    ∃ pools', poolStep pools op = some (pools', es) ∧ Tracks f' pools' := by
  cases hdone with
  | default o ho =>
    have hpool := (h.live o).mp ho
    exact ⟨_, by simp only [poolStep, hpool], h.default o⟩
  | construct o size count array ho =>
    obtain ⟨hsize, hbase, hfits, hnew⟩ := hallowed
    have hpool := (h.live o).mp ho
    refine ⟨_, by simp only [poolStep, hpool]; rfl, ?_⟩
    apply h.update (Pool.holds_full hsize hbase hfits f.memory)
    · intro k Q _ hQ
      exact create_same hsize f.memory (hnew k Q hQ).2
    · intro k Q _ hQ
      exact (hnew k Q hQ).2.symm
  | moveConstruct o other ho hother =>
    have hpool := (h.live o).mp ho
    obtain ⟨Q, hQ, -⟩ := h.pools_some hother
    refine ⟨_, by simp only [poolStep, hpool, hQ]; rfl, ?_⟩
    rw [update_eq_comp_default ho hother, update_eq_comp_default hpool hQ]
    exact (h.default o).comp (Equiv.swap other o)
  | moveAssign o other ho hother =>
    obtain ⟨P, hP, -⟩ := h.pools_some ho
    obtain ⟨Q, hQ, -⟩ := h.pools_some hother
    refine ⟨_, by simp only [poolStep, hP, hQ]; rfl, ?_⟩
    rw [update_eq_comp_swap ho hother, update_eq_comp_swap hP hQ]
    exact h.comp (Equiv.swap other o)
  | destroy o ho =>
    obtain ⟨P, hP, hholds⟩ := h.pools_some ho
    exact ⟨_, by simp only [poolStep, hP, hholds.array?_eq], h.destroy o⟩
  | call o c ho =>
    obtain ⟨P, hP, hholds⟩ := h.pools_some ho
    obtain ⟨hanswer, hcall, hsame⟩ := hholds.call (hallowed P hP)
    refine ⟨_, by simp only [poolStep, hP, hanswer]; rfl, ?_⟩
    apply h.update hcall
    · intro k Q hk hQ
      exact hsame _ _ (h.apart k o Q P hk hQ hP)
    · intro k Q hk hQ
      exact h.apart o k P Q hk.symm hP hQ

end Tracks

/-- How often an array was returned by `new`, and how often it was deleted. -/
def newed (es : List (Event ι)) (array : ℕ) : ℕ := es.count (.newed array)

def deleted (es : List (Event ι)) (array : ℕ) : ℕ := es.count (.deleted array)

omit [DecidableEq ι] in
/-- The array that an object will delete. -/
def arrays (objects : ι → Option FixedPoolAllocator) (o : ι) : Option ℕ :=
  (objects o).bind FixedPoolAllocator.array?

section Arrays
variable {f f' : Family ι} {pools : ι → Option Pool} {o : ι} {es fs : List (Event ι)}

theorem newed_append (es fs : List (Event ι)) : newed (es ++ fs) = newed es + newed fs := by
  funext p
  exact List.count_append

theorem deleted_append (es fs : List (Event ι)) : deleted (es ++ fs) = deleted es + deleted fs := by
  funext p
  exact List.count_append

theorem newed_singleton (array : ℕ) : newed [(.newed array : Event ι)] = Pi.single array 1 := by
  funext p
  by_cases hp : p = array
  · subst hp
    simp [newed]
  · simp [newed, hp, Ne.symm hp]

theorem deleted_singleton (array : ℕ) :
    deleted [(.deleted array : Event ι)] = Pi.single array 1 := by
  funext p
  by_cases hp : p = array
  · subst hp
    simp [deleted]
  · simp [deleted, hp, Ne.symm hp]

theorem arrays_update (objects : ι → Option FixedPoolAllocator) (o : ι)
    (a : Option FixedPoolAllocator) : arrays (Function.update objects o a) =
      Function.update (arrays objects) o (a.bind FixedPoolAllocator.array?) := by
  funext k
  by_cases hk : k = o
  · subst hk
    simp only [arrays, Function.update_self]
  · simp only [arrays, Function.update_of_ne hk]

theorem arrays_update_same {objects : ι → Option FixedPoolAllocator} {a : Option FixedPoolAllocator}
    (h : a.bind FixedPoolAllocator.array? = arrays objects o) :
    arrays (Function.update objects o a) = arrays objects := by
  rw [arrays_update, h, Function.update_eq_self]

/-- No two objects delete the same array, and the counts tell which arrays are left. -/
theorem Tracks.kept (h : Tracks f pools) {op : Op ι} (hallowed : op.Allowed pools)
    (hkept : Kept (arrays f.objects) (newed es) (deleted es)) (hdone : Done f op f' fs) :
    Kept (arrays f'.objects) (newed (es ++ fs)) (deleted (es ++ fs)) := by
  have hquiet : Kept (arrays f.objects) (newed (es ++ [])) (deleted (es ++ [])) := by
    rwa [List.append_nil]
  have hnone : ∀ o, f.objects o = none → arrays f.objects o = none := by
    intro o ho
    rw [arrays, ho]
    rfl
  have hsome : ∀ o a, f.objects o = some a → arrays f.objects o = a.array? := by
    intro o a ho
    rw [arrays, ho]
    rfl
  have hdefault : ∀ o, f.objects o = none →
      arrays (Function.update f.objects o (some {})) = arrays f.objects := by
    intro o ho
    apply arrays_update_same
    rw [hnone o ho]
    rfl
  cases hdone with
  | default o ho => exact (hdefault o ho).symm ▸ hquiet
  | construct o size count array ho =>
    obtain ⟨-, hbase, -, hnew⟩ := hallowed
    have hfresh : ∀ k, arrays f.objects k ≠ some array := by
      intro k hk
      obtain ⟨b, hb, harray⟩ := Option.bind_eq_some_iff.mp hk
      obtain ⟨Q, hQ, hholds⟩ := h.pools_some hb
      rw [hholds.array?_eq, Pool.array?] at harray
      split at harray
      · cases harray
      · exact (hnew k Q hQ).1 (Option.some.inj harray)
    have harray : (create array size count f.memory).1.array? = some array := if_neg hbase
    rw [newed_append, deleted_append, newed_singleton, arrays_update, Option.bind_some, harray]
    exact hkept.acquire (hnone o ho) hfresh
  | moveConstruct o other ho hother =>
    rw [update_eq_comp_default ho hother]
    exact ((hdefault o ho).symm ▸ hquiet).comp (Equiv.swap other o)
  | moveAssign o other ho hother =>
    rw [update_eq_comp_swap ho hother]
    exact hquiet.comp (Equiv.swap other o)
  | @destroy o a ho =>
    have harray := hsome o a ho
    cases ha : a.array? with
    | none =>
      have hsame : arrays (Function.update f.objects o none) = arrays f.objects :=
        arrays_update_same (ha.symm.trans harray.symm)
      exact hsame.symm ▸ hquiet
    | some p =>
      change Kept _ (newed (es ++ [.deleted p])) (deleted (es ++ [.deleted p]))
      rw [newed_append, deleted_append, deleted_singleton, arrays_update]
      exact hkept.release (harray.trans ha)
  | @call o c a ho =>
    obtain ⟨P, hP, hholds⟩ := h.pools_some ho
    obtain ⟨-, hcall, -⟩ := hholds.call (hallowed P hP)
    have harray : (machine (a, f.memory) c).2.1.array? = arrays f.objects o :=
      hcall.array?_eq.trans (hholds.array?_eq.symm.trans (hsome o a ho).symm)
    have hsame : arrays (Function.update f.objects o (some (machine (a, f.memory) c).2.1)) =
        arrays f.objects := arrays_update_same harray
    rw [hsame, newed_append, deleted_append]
    exact hkept

end Arrays

/-- The calls on any number of allocators that are made, moved and destroyed in any order
are answered by stacks that are handed on whole, and an array is deleted once, when the
object that has it is destroyed. -/
theorem owned_of_exec (m₀ : Memory) (ops : List (Op ι)) (f : Family ι) (es : List (Event ι))
    (h : step.exec ⟨fun _ => none, m₀⟩ ops = some (f, es))
    (hallowed : ∀ pre op, pre ++ [op] <+: ops → ∀ pools es,
      poolStep.exec (fun _ => none) pre = some (pools, es) → op.Allowed pools) :
    (∃ pools, poolStep.exec (fun _ => none) ops = some (pools, es) ∧ Tracks f pools) ∧
      Kept (arrays f.objects) (newed es) (deleted es) := by
  have hfollow : ∀ pre, pre <+: ops → ∀ f es, step.exec ⟨fun _ => none, m₀⟩ pre = some (f, es) →
      ∃ pools, poolStep.exec (fun _ => none) pre = some (pools, es) ∧ Tracks f pools := by
    intro pre hpre f es hexec
    refine Stepper.exec_simulates (tracks_start m₀) ?_ hpre hexec
    intro pre op hop f₁ pools es hpools htracks f₂ fs hstep
    exact htracks.step (hallowed pre op hop pools es hpools) (done_of_step hstep)
  refine ⟨hfollow ops List.prefix_rfl f es h, ?_⟩
  refine Stepper.exec_induction (I := fun _ f es => Kept (arrays f.objects) (newed es) (deleted es))
    Kept.start ?_ List.prefix_rfl h
  intro pre op f es f' fs hop hexec hkept hstep
  obtain ⟨pools, hpools, htracks⟩ :=
    hfollow pre ((List.prefix_append pre [op]).trans hop) f es hexec
  exact htracks.kept (hallowed pre op hop pools es hpools) hkept (done_of_step hstep)

/-- A block is taken, the allocator is moved twice, and the block is given back where the
allocator is then. -/
theorem owned_of_exec_moved :
    let ops : List (Op ℕ) := [.default 0, .construct 1 8 2 1024, .moveAssign 0 1, .destroy 1,
      .call 0 .allocate, .moveConstruct 2 0, .destroy 0, .call 2 (.free 1024), .destroy 2]
    ∃ f es, step.exec ⟨fun _ => none, fun _ => 0⟩ ops = some (f, es) ∧
      (∃ pools, poolStep.exec (fun _ => none) ops = some (pools, es) ∧ Tracks f pools) ∧
        Kept (arrays f.objects) (newed es) (deleted es) := by
  intro ops
  refine ⟨_, _, rfl, owned_of_exec (fun _ => 0) ops _ _ rfl ?_⟩
  intro pre op hpre pools es h
  obtain ⟨n, hn, rfl, rfl⟩ := concat_prefix_iff.mp hpre
  have hn : n < 9 := hn
  interval_cases n <;> cases h
  · trivial
  · refine ⟨le_rfl, by decide, by decide, ?_⟩
    intro o P hP
    by_cases ho : o = 0
    · subst ho
      cases hP
      exact ⟨by decide, Or.inl (by decide)⟩
    · simp only [Function.update_of_ne ho, reduceCtorEq] at hP
  · trivial
  · trivial
  · exact fun P _ => trivial
  · trivial
  · trivial
  · intro P hP
    cases hP
    exact List.mem_singleton_self 1024
  · trivial

end Jobrocket.FixedPoolAllocator
