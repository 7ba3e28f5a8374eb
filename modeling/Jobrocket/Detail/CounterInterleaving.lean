import Jobrocket.Detail.AtomicCounter
import Jobrocket.Library.Interleaving

/-! # The counter's calls, one access at a time

A decrement that drops below zero stores zero in a step of its own, and calls of other
threads can fall between the two. A tally follows the counter as a number with a sign and
sums up what such stores overwrite.
-/
namespace Jobrocket.CounterInterleaving
open Library AtomicCounter

/-- The next access of a thread inside `decrement`. -/
inductive PC
  | idle
  | store
  deriving DecidableEq

structure Config (τ : Type*) where
  value : UInt32
  threads : τ → PC

/-- A thread makes a call, or goes on to the store of its decrement. -/
inductive Label (τ : Type*)
  | increment (t : τ)
  | decrement (t : τ)
  | store (t : τ)
  deriving DecidableEq

variable {τ : Type*}

def fresh (start : UInt32) : Config τ := ⟨start, fun _ => .idle⟩

def Config.Returned (c : Config τ) : Prop := ∀ t, c.threads t = .idle

/-- One access of a thread, with the call that it begins. -/
def step [DecidableEq τ] : Stepper (Config τ) (Label τ) Call
  | c, .increment t =>
    match c.threads t with
    | .idle => some ({ c with value := increment c.value }, [.increment])
    | .store => none
  | c, .decrement t =>
    match c.threads t with
    | .idle =>
      let val := c.value - 1
      some (⟨val, Function.update c.threads t (if clamps val then .store else .idle)⟩, [.decrement])
    | .store => none
  | c, .store t =>
    match c.threads t with
    | .idle => none
    | .store => some (⟨0, Function.update c.threads t .idle⟩, [])

/-- The counter as a number that can drop below zero, and the sum of the numbers that
stores of zero have overwritten. -/
structure Tally where
  level : ℤ
  discarded : ℤ
  deriving DecidableEq

def Tally.add (a : Tally) : Label τ → Tally
  | .increment _ => { a with level := a.level + 1 }
  | .decrement _ => { a with level := a.level - 1 }
  | .store _ => ⟨0, a.discarded + a.level⟩

def tally (start : UInt32) (ls : List (Label τ)) : Tally := ls.foldl Tally.add ⟨start.toNat, 0⟩

theorem tally_concat (start : UInt32) (ls : List (Label τ)) (l : Label τ) :
    tally start (ls ++ [l]) = (tally start ls).add l := by
  rw [tally, List.foldl_append, ← tally]
  rfl

section Moves
variable [DecidableEq τ]

inductive Move (c : Config τ) : Label τ → Config τ → List Call → Prop
  | increment (t : τ) : Move c (.increment t) { c with value := increment c.value } [.increment]
  | decrement (t : τ) (idle : c.threads t = .idle) (above : c.value ≠ 0) :
    Move c (.decrement t) { c with value := c.value - 1 } [.decrement]
  | underflow (t : τ) (idle : c.threads t = .idle) (zero : c.value = 0) :
    Move c (.decrement t) ⟨c.value - 1, Function.update c.threads t .store⟩ [.decrement]
  | store (t : τ) (pending : c.threads t = .store) :
    Move c (.store t) ⟨0, Function.update c.threads t .idle⟩ []

theorem move_of_step {c d : Config τ} {l : Label τ} {calls : List Call}
    (h : step c l = some (d, calls)) : Move c l d calls := by
  cases l with
  | increment t =>
    cases ht : c.threads t with
    | idle => simp only [step, ht] at h; cases h; exact .increment t
    | store => simp only [step, ht] at h; cases h
  | decrement t =>
    cases ht : c.threads t with
    | idle =>
      simp only [step, ht] at h
      by_cases hzero : c.value = 0
      · rw [if_pos (clamps_iff.mpr hzero)] at h
        cases h
        exact .underflow t ht hzero
      · rw [if_neg (mt clamps_iff.mp hzero), ← ht, Function.update_eq_self] at h
        cases h
        exact .decrement t ht hzero
    | store => simp only [step, ht] at h; cases h
  | store t =>
    cases ht : c.threads t with
    | idle => simp only [step, ht] at h; cases h
    | store => simp only [step, ht] at h; cases h; exact .store t ht

end Moves

section Invariant

/-- The value is the level, up to the wrap. The level is what the calls amount to, less what
was discarded; it is above its start only by increments; and below zero only while a
thread is about to store zero. -/
structure Balanced (start : UInt32) (ls : List (Label τ)) (c : Config τ) (calls : List Call) :
    Prop where
  value : (tally start ls).level % 2 ^ 32 = c.value.toNat
  balance : (tally start ls).level + (tally start ls).discarded + decrements calls =
    start.toNat + increments calls
  upper : (tally start ls).level ≤ increments calls ∨
    (tally start ls).level + decrements calls ≤ start.toNat + increments calls
  pending : (tally start ls).level < 0 → ∃ t, c.threads t = .store

variable {start : UInt32} {ls : List (Label τ)} {c d : Config τ} {calls more : List Call}
  {l : Label τ}

theorem balanced_fresh (start : UInt32) : Balanced start [] (fresh start : Config τ) [] := by
  have hlt := start.toNat_lt
  refine ⟨?_, by simp [tally, SaturatingCount.ups, SaturatingCount.downs],
    by simp [tally, SaturatingCount.ups, SaturatingCount.downs], fun h => ?_⟩
  · simp only [tally, List.foldl_nil, fresh]
    omega
  · simp only [tally, List.foldl_nil] at h
    omega

theorem increments_append (calls more : List Call) :
    increments (calls ++ more) = increments calls + increments more := List.countP_append

theorem decrements_append (calls more : List Call) :
    decrements (calls ++ more) = decrements calls + decrements more := List.countP_append

theorem Balanced.move [DecidableEq τ] (h : Balanced start ls c calls) (hmove : Move c l d more) :
    Balanced start (ls ++ [l]) d (calls ++ more) := by
  obtain ⟨hvalue, hbalance, hupper, hpending⟩ := h
  have hlt := c.value.toNat_lt
  have hup : increments [.increment] = 1 ∧ decrements [.increment] = 0 := by decide
  have hdown : increments [.decrement] = 0 ∧ decrements [.decrement] = 1 := by decide
  cases hmove with
  | increment t =>
    refine ⟨?_, ?_, ?_, ?_⟩ <;> rw [tally_concat] <;>
      simp only [Tally.add, increments_append, decrements_append, hup]
    · rw [increment, UInt32.toNat_add, UInt32.toNat_one]
      omega
    · omega
    · omega
    · exact fun hneg => hpending (by omega)
  | decrement t hidle habove =>
    have hnz : c.value.toNat ≠ 0 := fun h => habove (UInt32.toNat_inj.mp h)
    refine ⟨?_, ?_, ?_, ?_⟩ <;> rw [tally_concat] <;>
      simp only [Tally.add, increments_append, decrements_append, hdown]
    · rw [UInt32.toNat_sub, UInt32.toNat_one]
      omega
    · omega
    · omega
    · exact fun hneg => hpending (by omega)
  | underflow t hidle hzero =>
    have hz : c.value.toNat = 0 := by rw [hzero]; rfl
    refine ⟨?_, ?_, ?_, fun _ => ⟨t, Function.update_self ..⟩⟩ <;> rw [tally_concat] <;>
      simp only [Tally.add, increments_append, decrements_append, hdown]
    · rw [UInt32.toNat_sub, UInt32.toNat_one]
      omega
    · omega
    · omega
  | store t hpend =>
    refine ⟨?_, ?_, ?_, ?_⟩ <;> rw [tally_concat] <;> simp only [Tally.add, List.append_nil]
    · rfl
    · omega
    · omega
    · exact fun hneg => absurd hneg (lt_irrefl 0)

theorem balanced_of_exec [DecidableEq τ] (h : step.exec (fresh start) ls = some (c, calls)) :
    Balanced start ls c calls := by
  refine Stepper.exec_induction (I := Balanced start) (balanced_fresh start) ?_ List.prefix_rfl h
  intro pre l c calls d more _ _ hbalanced hstep
  exact hbalanced.move (move_of_step hstep)

/-- While there are no more decrements than the start covers, no decrement drops below zero. -/
theorem Balanced.quiet_move [DecidableEq τ] (h : Balanced start ls c calls)
    (hquiet : (tally start ls).discarded = 0 ∧ c.Returned)
    (hfew : decrements (calls ++ more) ≤ start.toNat)
    (hroom : start.toNat + (calls ++ more).length < 2 ^ 32) (hmove : Move c l d more) :
    (tally start (ls ++ [l])).discarded = 0 ∧ d.Returned := by
  obtain ⟨hzero, hret⟩ := hquiet
  rw [tally_concat]
  cases hmove with
  | increment t => exact ⟨hzero, hret⟩
  | decrement t hidle habove => exact ⟨hzero, hret⟩
  | underflow t hidle hvalue =>
    have hdown : decrements [.decrement] = 1 := by decide
    have hcount := increments_add_decrements calls
    have hlevel := h.value
    have hbalance := h.balance
    rw [hvalue, UInt32.toNat_zero] at hlevel
    rw [decrements_append, hdown] at hfew
    rw [List.length_append, List.length_singleton] at hroom
    omega
  | store t hpend =>
    rw [hret t] at hpend
    cases hpend

theorem quiet_of_exec [DecidableEq τ] (h : step.exec (fresh start) ls = some (c, calls))
    (hfew : decrements calls ≤ start.toNat) (hroom : start.toNat + calls.length < 2 ^ 32) :
    (tally start ls).discarded = 0 ∧ c.Returned := by
  refine Stepper.exec_induction (I := fun ls c calls => decrements calls ≤ start.toNat →
    start.toNat + calls.length < 2 ^ 32 → (tally start ls).discarded = 0 ∧ c.Returned)
    (fun _ _ => ⟨rfl, fun _ => rfl⟩) ?_ List.prefix_rfl h hfew hroom
  intro pre l c calls d more _ hexec ih hstep hfew hroom
  refine (balanced_of_exec hexec).quiet_move (ih ?_ ?_) hfew hroom (move_of_step hstep)
  · exact (decrements_append calls more ▸ Nat.le_add_right ..).trans hfew
  · rw [List.length_append] at hroom
    omega

/-- When all calls have returned the level is the value. -/
theorem Balanced.value_eq (h : Balanced start ls c calls) (hret : c.Returned)
    (hroom : start.toNat + calls.length < 2 ^ 32 - 1) :
    (c.value.toNat : ℤ) = (tally start ls).level := by
  have hcount := increments_add_decrements calls
  have hnonneg : 0 ≤ (tally start ls).level := by
    by_contra hneg
    obtain ⟨t, ht⟩ := h.pending (by omega)
    rw [hret t] at ht
    cases ht
  have hvalue := h.value
  rcases h.upper with hupper | hupper <;> omega

end Invariant

section Runs
variable [DecidableEq τ]

/-- The counter ends as after the same calls in some order, if and only if the numbers that
stores of zero overwrote sum to no more than zero. -/
theorem serializable_iff_discarded (start : UInt32) (ls : List (Label τ)) (c : Config τ)
    (calls : List Call) (h : step.exec (fresh start) ls = some (c, calls)) (hret : c.Returned)
    (hroom : start.toNat + calls.length < 2 ^ 32 - 1) :
    Serializable start calls c.value ↔ (tally start ls).discarded ≤ 0 := by
  have hbalanced := balanced_of_exec h
  have hvalue := hbalanced.value_eq hret hroom
  have hbalance := hbalanced.balance
  have hupper := hbalanced.upper
  rw [serializable_iff (by omega)]
  omega

/-- Every interleaving is right if no decrement can find the counter at zero, or if the
decrements take the counter to zero in every order. -/
theorem serializable_of_decrements {start : UInt32} {ls : List (Label τ)} {c : Config τ}
    {calls : List Call} (h : step.exec (fresh start) ls = some (c, calls)) (hret : c.Returned)
    (hroom : start.toNat + calls.length < 2 ^ 32 - 1)
    (hcount : decrements calls ≤ start.toNat ∨
      start.toNat + increments calls ≤ decrements calls) :
    Serializable start calls c.value := by
  have hbalance := (balanced_of_exec h).balance
  have hvalue := (balanced_of_exec h).value_eq hret hroom
  have hupper := (balanced_of_exec h).upper
  rw [serializable_iff (by omega)]
  rcases hcount with hfew | hmany
  · have hquiet := (quiet_of_exec h hfew (by omega)).1
    omega
  · omega

end Runs

section Small

/-- The store comes before the increments of the other thread. -/
abbrev storeFirst : List (Label Bool) :=
  [.decrement false, .store false, .increment true, .increment true]

theorem serializable_iff_discarded_store_first : ∃ c calls,
    step.exec (fresh 0) storeFirst = some (c, calls) ∧ Serializable 0 calls c.value := by
  refine ⟨_, _, rfl, ?_⟩
  exact (serializable_iff_discarded 0 storeFirst _ _ rfl (by unfold Config.Returned; decide)
    (by decide)).mpr (by decide)

abbrev storeLast : List (Label Bool) :=
  [.decrement false, .increment true, .increment true, .store false]

/-- Both increments fall between the two accesses of the decrement, and the store of zero
discards what they left. -/
theorem store_last_not_serializable : ∃ c calls,
    step.exec (fresh 0) storeLast = some (c, calls) ∧ c.Returned ∧
      calls = [.decrement, .increment, .increment] ∧ c.value = 0 ∧
      ¬ Serializable 0 calls c.value := by
  refine ⟨_, _, rfl, by unfold Config.Returned; decide, rfl, rfl, fun h => ?_⟩
  have hbounds := (serializable_iff (by decide)).mp h
  exact absurd hbounds (by decide)

end Small

end Jobrocket.CounterInterleaving
