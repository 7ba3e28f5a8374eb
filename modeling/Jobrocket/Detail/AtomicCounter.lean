import Jobrocket.Library.SaturatingCount

/-! # The atomic counter

Called by one thread at a time, the counter counts up and down and stays at zero when it is
counted down there, as long as it does not run over.
-/
namespace Jobrocket.AtomicCounter
open Library

def increment (c : UInt32) : UInt32 := c + 1

/-- A counter that drops below zero is stored back as zero. -/
def decrement (c : UInt32) : UInt32 :=
  let val := c - 1
  if val + 1 = 0 then 0 else val

theorem increment_toNat {c : UInt32} (h : c.toNat + 1 < 2 ^ 32) :
    (increment c).toNat = c.toNat + 1 := by
  rw [increment, UInt32.toNat_add, UInt32.toNat_one]
  exact Nat.mod_eq_of_lt h

theorem decrement_toNat (c : UInt32) : (decrement c).toNat = c.toNat - 1 := by
  by_cases hc : c = 0
  · subst hc
    rfl
  · have hpos : c.toNat ≠ 0 := fun h => hc (UInt32.toNat_inj.mp h)
    have hback : c - 1 + 1 ≠ 0 := by rwa [UInt32.sub_add_cancel]
    have hlt := c.toNat_lt
    rw [decrement, if_neg hback, UInt32.toNat_sub, UInt32.toNat_one]
    omega

/-- The test of `decrement` on the value that `--counter_` left. -/
def clamps (val : UInt32) : Bool := val + 1 == 0

theorem decrement_eq (c : UInt32) : decrement c = if clamps (c - 1) then 0 else c - 1 := by
  simp [decrement, clamps]

theorem clamps_iff {c : UInt32} : clamps (c - 1) = true ↔ c = 0 := by
  rw [clamps, beq_iff_eq, UInt32.sub_add_cancel]

inductive Call
  | increment
  | decrement
  deriving DecidableEq

namespace Call

def isIncrement : Call → Bool
  | increment => true
  | decrement => false

def apply (c : UInt32) : Call → UInt32
  | increment => AtomicCounter.increment c
  | decrement => AtomicCounter.decrement c

end Call

/-- The counter after the calls, one after another. -/
def serial (start : UInt32) (calls : List Call) : UInt32 := calls.foldl Call.apply start

abbrev increments (calls : List Call) : ℕ := SaturatingCount.ups Call.isIncrement calls

abbrev decrements (calls : List Call) : ℕ := SaturatingCount.downs Call.isIncrement calls

theorem increments_add_decrements (calls : List Call) :
    increments calls + decrements calls = calls.length := by
  have h := List.length_eq_countP_add_countP Call.isIncrement (l := calls)
  simp only [Bool.not_eq_true, Bool.decide_eq_false] at h
  exact h.symm

theorem apply_toNat {c : UInt32} {call : Call} (h : c.toNat + 1 < 2 ^ 32) :
    (call.apply c).toNat = SaturatingCount.tick Call.isIncrement c.toNat call := by
  cases call with
  | increment => exact increment_toNat h
  | decrement => exact decrement_toNat c

theorem serial_toNat {start : UInt32} {calls : List Call}
    (h : start.toNat + calls.length < 2 ^ 32) :
    (serial start calls).toNat =
      SaturatingCount.count Call.isIncrement start.toNat calls := by
  induction calls generalizing start with
  | nil => rfl
  | cons call calls ih =>
    rw [List.length_cons] at h
    have happly : (call.apply start).toNat =
        SaturatingCount.tick Call.isIncrement start.toNat call := apply_toNat (by omega)
    have hle : (call.apply start).toNat ≤ start.toNat + 1 := by
      rw [happly, SaturatingCount.tick]
      split <;> omega
    rw [SaturatingCount.count_cons, ← happly]
    exact ih (by omega)

/-- The values that the calls leave when they are made one after another in some order. -/
def Serializable (start : UInt32) (calls : List Call) (value : UInt32) : Prop :=
  ∃ order, order.Perm calls ∧ serial start order = value

theorem serializable_iff {start value : UInt32} {calls : List Call}
    (h : start.toNat + calls.length < 2 ^ 32) :
    Serializable start calls value ↔
      start.toNat + increments calls ≤ value.toNat + decrements calls ∧
        (value.toNat ≤ increments calls ∨
          value.toNat + decrements calls = start.toNat + increments calls) := by
  rw [← SaturatingCount.exists_order_iff]
  refine exists_congr fun order => and_congr_right fun hperm => ?_
  rw [← UInt32.toNat_inj, serial_toNat (hperm.length_eq.symm ▸ h)]

end Jobrocket.AtomicCounter
