import Jobrocket.Detail.RNG

/-! # Jumps of the generator

The loops of `jump` add up the states that the digits of its constant select among the
next 128. The constant is the power `2 ^ 64` of the variable, reduced by a polynomial of
degree 128 that the update is a root of, so the sum is the state after `2 ^ 64` updates.
-/
namespace Jobrocket.Xoroshiro128
open Library BinaryPolynomial
open scoped BigOperators

/-- The constants of `jump` as one polynomial, the lowest word first. -/
def jumpPolynomial : ℕ := 0xd86b048b86aa9922beac0467eba5facb

/-- A polynomial that has the update as a root. -/
def modulus : ℕ := 0x100653ced7f29f88a5fd66762f0e1c001

/-- The words that the loops of `jump` have summed up. -/
def collected (acc : (UInt64 × UInt64) × Xoroshiro128) : Xoroshiro128 := ⟨acc.1.1, acc.1.2⟩

theorem jump_eq_collected (r : Xoroshiro128) :
    jump r = collected (jumpWords.foldl jumpWord ((0, 0), r)) := by
  rw [jump, collected]

section Loops
variable (i : UInt64) (acc : (UInt64 × UInt64) × Xoroshiro128)

theorem jumpBit_spec {b : ℕ} (hb : b < 64) :
    collected (jumpBit i acc b) = collected acc + (if i.toNat.testBit b then acc.2 else 0) ∧
      (jumpBit i acc b).2 = advance acc.2 := by
  obtain ⟨⟨s0, s1⟩, r⟩ := acc
  by_cases hbit : i.toNat.testBit b = true
  · simp only [jumpBit, if_pos hbit, if_pos ((testBit_toNat_iff hb).mpr hbit)]
    exact ⟨rfl, rfl⟩
  · simp only [jumpBit, if_neg hbit, if_neg (mt (testBit_toNat_iff hb).mp hbit)]
    exact ⟨(add_zero _).symm, rfl⟩

theorem jumpBits_spec {n : ℕ} (hn : n ≤ 64) :
    collected ((List.range n).foldl (jumpBit i) acc) = collected acc +
        ∑ k ∈ Finset.range n, (if i.toNat.testBit k then advance^[k] acc.2 else 0) ∧
      ((List.range n).foldl (jumpBit i) acc).2 = advance^[n] acc.2 := by
  induction n with
  | zero => exact ⟨(add_zero _).symm, rfl⟩
  | succ n ih =>
    obtain ⟨hsum, hstate⟩ := ih (by omega)
    obtain ⟨hturn, hnext⟩ := jumpBit_spec i ((List.range n).foldl (jumpBit i) acc)
      (by omega : n < 64)
    rw [List.range_succ, List.foldl_append, List.foldl_cons, List.foldl_nil]
    constructor
    · rw [hturn, hsum, hstate, Finset.sum_range_succ, add_assoc]
    · rw [hnext, hstate, Function.iterate_succ_apply']

theorem jumpWord_spec :
    collected (jumpWord acc i) = collected acc + value advance i.toNat acc.2 ∧
      (jumpWord acc i).2 = (advance ^ 64) acc.2 := by
  obtain ⟨hsum, hstate⟩ := jumpBits_spec i acc le_rfl
  constructor
  · rw [jumpWord, hsum, value_eq_sum advance i.toNat_lt, BinaryPolynomial.sum_apply]
  · rw [jumpWord, hstate, AddMonoid.End.coe_pow]

/-- The outer loop, for any two words. -/
theorem jumpWords_spec (i j : UInt64) (r : Xoroshiro128) :
    collected ([i, j].foldl jumpWord ((0, 0), r)) =
      value advance i.toNat r + value advance j.toNat ((advance ^ 64) r) := by
  rw [List.foldl_cons, List.foldl_cons, List.foldl_nil, (jumpWord_spec j _).1,
    (jumpWord_spec i _).1, (jumpWord_spec i _).2]
  exact congrArg (· + _) (zero_add _)

end Loops

theorem jump_eq_value (r : Xoroshiro128) : jump r = value advance jumpPolynomial r := by
  have hlow : (0xbeac0467eba5facb : UInt64).toNat = 0xbeac0467eba5facb := by decide
  have hhigh : (0xd86b048b86aa9922 : UInt64).toNat = 0xd86b048b86aa9922 := by decide
  have hsplit : jumpPolynomial = 0xbeac0467eba5facb ^^^ (2 ^ 64 * 0xd86b048b86aa9922) := by decide
  have hswap : (advance ^ 64) (value advance 0xd86b048b86aa9922 r) =
      value advance 0xd86b048b86aa9922 ((advance ^ 64) r) :=
    commute_apply ((commute_value advance _).pow_left 64) r
  rw [jump_eq_collected, jumpWords, jumpWords_spec, hlow, hhigh, hsplit, value_xor end_add_self,
    value_two_pow_mul, ← hswap, add_mul_apply]

/-- The update is a root of the modulus. -/
theorem value_modulus : value advance modulus = 0 := by
  have hbits : (List.range 64).all fun k => decide
      (combine (fun r => r.next.2) 129 modulus (⟨1 <<< UInt64.ofNat k, 0⟩ : Xoroshiro128) = 0) := by
    decide +kernel
  refine end_eq_zero (commute_value advance modulus) fun k hk => ?_
  have hsmall : modulus < 2 ^ 129 := by decide
  rw [← combine_eq_value advance hsmall]
  exact of_decide_eq_true (List.all_eq_true.mp hbits k (List.mem_range.mpr hk))

theorem squares_eq : squares 128 modulus 64 2 = jumpPolynomial := by decide +kernel

theorem jump_eq_pow (r : Xoroshiro128) : jump r = (advance ^ 2 ^ 64) r := by
  rw [jump_eq_value, pow_two_pow end_add_self value_modulus 128 64, squares_eq]

theorem jump_eq : jump = (fun s => s.next.2)^[2 ^ 64] := by
  funext r
  rw [jump_eq_pow, advance_pow_apply]

/-- A jump is `2 ^ 64` calls of `next`. -/
theorem jump_eq_iterate (r : Xoroshiro128) : jump r = (fun s => s.next.2)^[2 ^ 64] r :=
  congrFun jump_eq r

theorem next_bijective : Function.Bijective fun r : Xoroshiro128 => r.next.2 :=
  Function.bijective_iff_has_inverse.mpr ⟨previous, previous_next, next_previous⟩

theorem jump_bijective : Function.Bijective jump := by
  rw [jump_eq]
  exact next_bijective.iterate (2 ^ 64)

theorem jump_zero : jump 0 = 0 := by rw [jump_eq_pow, map_zero]

section Runs

inductive Call
  | next
  | jump

/-- A call gives the number drawn, if any, and the next state. -/
def call : Machine Xoroshiro128 Call (Option UInt64)
  | r, .next => let (x, r) := r.next; (some x, r)
  | r, .jump => (none, r.jump)

/-- `rand_.next() % workers_->size()` -/
def victim (r : Xoroshiro128) (workers : ℕ) : ℕ := r.next.1.toNat % workers

theorem call_injective (c : Call) : Function.Injective fun r => (call r c).2 := by
  cases c with
  | next => exact next_bijective.injective
  | jump => exact jump_bijective.injective

theorem call_zero (c : Call) : (call 0 c).2 = 0 := by
  cases c with
  | next => exact map_zero advance
  | jump => exact jump_zero

theorem after_zero (calls : List Call) : call.after 0 calls = 0 := by
  induction calls with
  | nil => rfl
  | cons c calls ih => rw [Machine.after_cons, call_zero, ih]

theorem after_ne_zero {r : Xoroshiro128} (hr : r ≠ 0) (calls : List Call) :
    call.after r calls ≠ 0 := by
  induction calls generalizing r with
  | nil => exact hr
  | cons c calls ih =>
    refine ih fun hzero => hr (call_injective c ?_)
    exact hzero.trans (call_zero c).symm

/-- The update permutes the states and fixes the one of two zero words, and no calls lead to
that state from another. -/
theorem never_stuck :
    Function.Bijective (fun r : Xoroshiro128 => r.next.2) ∧
      (⟨0, 0⟩ : Xoroshiro128).next.2 = ⟨0, 0⟩ ∧
      (∀ seed : Xoroshiro128, seed ≠ ⟨0, 0⟩ → ∀ calls, call.after seed calls ≠ ⟨0, 0⟩) ∧
      ∀ calls workers, victim (call.after ⟨0, 0⟩ calls) workers = 0 := by
  refine ⟨next_bijective, map_zero advance, fun _ hseed => after_ne_zero hseed, ?_⟩
  intro calls workers
  have hzero : call.after ⟨0, 0⟩ calls = ⟨0, 0⟩ := after_zero calls
  rw [hzero]
  exact Nat.zero_mod workers

/-- The seed of the workers. -/
theorem never_stuck_seed : call.after ⟨1, 2⟩ [.next, .jump, .next] ≠ ⟨0, 0⟩ :=
  never_stuck.2.2.1 _ (by decide) _

end Runs

end Jobrocket.Xoroshiro128
