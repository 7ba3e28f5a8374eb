import Jobrocket.Library.Machine
import Jobrocket.Library.RingWindow
import Jobrocket.Library.Word

/-! # The fixed-capacity work-stealing queue

The two indices are 64-bit words and every access to the ring goes through the index
modulo the capacity. Here each call runs without interference; the single atomic
accesses are interleaved in `QueueInterleaving`. The statistics counter is written by
every call and read by none, so it is left out.
-/
namespace Jobrocket
open Library

structure FixedWorkStealingQueue (J : Type*) where
  capacity : ℕ
  top : UInt64
  bottom : UInt64
  jobs : List J
  jobs_length : jobs.length = capacity

namespace FixedWorkStealingQueue
variable {J : Type*}

/-- `jobs_[i % capacity_] = job` -/
def write (q : FixedWorkStealingQueue J) (i : UInt64) (job : J) : FixedWorkStealingQueue J :=
  { q with
    jobs := q.jobs.set (i.toNat % q.capacity) job
    jobs_length := by rw [List.length_set, q.jobs_length] }

/-- The source also loads `top_` here and uses it for nothing. -/
def push (q : FixedWorkStealingQueue J) (job : J) : FixedWorkStealingQueue J :=
  let b := q.bottom
  { q.write b job with bottom := b + 1 }

def empty (q : FixedWorkStealingQueue J) : Bool := decide (q.bottom ≤ q.top)

@[simp] theorem write_top (q : FixedWorkStealingQueue J) (i : UInt64) (job : J) :
    (q.write i job).top = q.top := rfl
@[simp] theorem write_bottom (q : FixedWorkStealingQueue J) (i : UInt64) (job : J) :
    (q.write i job).bottom = q.bottom := rfl
@[simp] theorem write_capacity (q : FixedWorkStealingQueue J) (i : UInt64) (job : J) :
    (q.write i job).capacity = q.capacity := rfl
@[simp] theorem push_capacity (q : FixedWorkStealingQueue J) (job : J) :
    (q.push job).capacity = q.capacity := rfl
@[simp] theorem push_top (q : FixedWorkStealingQueue J) (job : J) : (q.push job).top = q.top := rfl
@[simp] theorem push_bottom (q : FixedWorkStealingQueue J) (job : J) :
    (q.push job).bottom = q.bottom + 1 := rfl

theorem empty_iff (q : FixedWorkStealingQueue J) :
    q.empty = true ↔ q.bottom.toNat ≤ q.top.toNat := by
  simp [empty, UInt64.le_iff_toNat_le]

variable [Inhabited J]

/-- A newly constructed queue. `default` is the null pointer that `resize` fills the
ring with. -/
def fresh (J : Type*) [Inhabited J] (capacity : ℕ) : FixedWorkStealingQueue J where
  capacity := capacity
  top := 0
  bottom := 0
  jobs := List.replicate capacity default
  jobs_length := List.length_replicate

/-- `jobs_[p % capacity_]` -/
def slot (q : FixedWorkStealingQueue J) (p : ℕ) : J := q.jobs.getD (p % q.capacity) default

def pop (q : FixedWorkStealingQueue J) : Option J × FixedWorkStealingQueue J :=
  let b := q.bottom - 1
  let t := q.top
  if t ≤ b then
    let target := q.slot b.toNat
    if t = b then
      let (won, t, top) := compareExchangeStrong q.top t (t + 1)
      (if won then some target else none, { q with top := top, bottom := t + 1 })
    else
      (some target, { q with bottom := b })
  else
    -- here `t` is the old `bottom_`, so the value stored is one too high
    (none, { q with bottom := t + 1 })

def steal (q : FixedWorkStealingQueue J) : Option J × FixedWorkStealingQueue J :=
  let t := q.top
  let b := q.bottom
  if t < b then
    let target := q.slot t.toNat
    let (won, _, top) := compareExchangeStrong q.top t (t + 1)
    (if won then some target else none, { q with top := top })
  else
    (none, q)

def entries (q : FixedWorkStealingQueue J) : List J := window q.slot q.top.toNat q.bottom.toNat

@[simp] theorem fresh_slot (capacity p : ℕ) : (fresh J capacity).slot p = default := by
  simp only [slot, fresh, List.getD_eq_getElem?_getD, List.getElem?_replicate]
  split <;> rfl

/-- Moving the indices leaves the slots alone. -/
@[simp] theorem slot_with (q : FixedWorkStealingQueue J) (t b : UInt64) (p : ℕ) :
    slot { q with top := t, bottom := b } p = q.slot p := rfl

theorem slot_write_self {q : FixedWorkStealingQueue J} (hc : 0 < q.capacity) (i : UInt64)
    (job : J) : (q.write i job).slot i.toNat = job := by
  have hi : i.toNat % q.capacity < q.jobs.length := by
    rw [q.jobs_length]
    exact Nat.mod_lt _ hc
  simp [slot, write, List.getD_eq_getElem?_getD, hi]

theorem slot_write_ne {q : FixedWorkStealingQueue J} {i : UInt64} {p : ℕ}
    (h : p % q.capacity ≠ i.toNat % q.capacity) (job : J) :
    (q.write i job).slot p = q.slot p := by
  simp [slot, write, List.getD_eq_getElem?_getD, List.getElem?_set_ne h.symm]

/-- A write just past a window that does not fill the ring leaves the window alone. -/
theorem slot_write_of_lt {q : FixedWorkStealingQueue J} {i : UInt64} {p : ℕ} (hp : p < i.toNat)
    (hi : i.toNat < p + q.capacity) (job : J) : (q.write i job).slot p = q.slot p :=
  slot_write_ne (mod_ne_mod hp hi) job

section Calls

/-- A push adds its job to every window that leaves a slot of the ring free. -/
theorem window_push {q : FixedWorkStealingQueue J} {lo : ℕ} (hlo : lo ≤ q.bottom.toNat)
    (hfree : q.bottom.toNat < lo + q.capacity) (job : J) :
    window (q.push job).slot lo (q.bottom.toNat + 1) =
      window q.slot lo q.bottom.toNat ++ [job] := by
  have hkept : window (q.push job).slot lo q.bottom.toNat = window q.slot lo q.bottom.toNat :=
    window_congr fun p hp hb => slot_write_of_lt hb (by omega) job
  have hnew : (q.push job).slot q.bottom.toNat = job := slot_write_self (by omega) q.bottom job
  rw [window_succ _ hlo, hkept, hnew]

theorem pop_many {q : FixedWorkStealingQueue J} (h : q.top < q.bottom - 1) :
    q.pop = (some (q.slot (q.bottom - 1).toNat), { q with bottom := q.bottom - 1 }) := by
  have hlt := UInt64.lt_iff_toNat_lt.mp h
  have hle : q.top ≤ q.bottom - 1 := UInt64.le_iff_toNat_le.mpr hlt.le
  have hne : q.top ≠ q.bottom - 1 := fun he => by rw [← he] at hlt; exact lt_irrefl _ hlt
  simp only [pop, if_pos hle, if_neg hne]

theorem pop_last {q : FixedWorkStealingQueue J} (h : q.top = q.bottom - 1) :
    q.pop = (some (q.slot q.top.toNat), { q with top := q.top + 1, bottom := q.top + 1 }) := by
  have hle : q.top ≤ q.top := UInt64.le_iff_toNat_le.mpr le_rfl
  simp only [pop, ← h, if_pos hle, compareExchangeStrong_self, if_true]

/-- A pop that finds no entry leaves `bottom_` one above `top_`. -/
theorem pop_none {q : FixedWorkStealingQueue J} (h : q.bottom - 1 < q.top) :
    q.pop = (none, { q with bottom := q.top + 1 }) := by
  have hlt := UInt64.lt_iff_toNat_lt.mp h
  have hle : ¬ q.top ≤ q.bottom - 1 := fun h' => by
    have := UInt64.le_iff_toNat_le.mp h'
    omega
  simp only [pop, if_neg hle]

theorem steal_some {q : FixedWorkStealingQueue J} (h : q.top < q.bottom) :
    q.steal = (some (q.slot q.top.toNat), { q with top := q.top + 1 }) := by
  simp only [steal, if_pos h, compareExchangeStrong_self, if_true]

theorem steal_none {q : FixedWorkStealingQueue J} (h : ¬ q.top < q.bottom) :
    q.steal = (none, q) := by
  simp only [steal, if_neg h]

end Calls

inductive Call (J : Type*) where
  | push (job : J)
  | pop
  | steal
  | empty
  deriving DecidableEq

/-- What a call returns. A `pop` or `steal` that returns true returns the job it took. -/
inductive Answer (J : Type*) where
  | pushed
  | taken (job : Option J)
  | isEmpty (b : Bool)
  deriving DecidableEq

def machine : Machine (FixedWorkStealingQueue J) (Call J) (Answer J)
  | q, .push job => (.pushed, q.push job)
  | q, .pop => (.taken q.pop.1, q.pop.2)
  | q, .steal => (.taken q.steal.1, q.steal.2)
  | q, .empty => (.isEmpty q.empty, q)

end FixedWorkStealingQueue

end Jobrocket
