import Mathlib.Algebra.BigOperators.Ring.Finset
import Mathlib.Algebra.Group.Hom.End
import Mathlib.Data.Nat.Bitwise
import Mathlib.Tactic

/-! # Polynomials over two elements

A number stands for the polynomial whose coefficients are its binary digits. In a ring in
which every element is its own negative the values of such polynomials at one element add
under exclusive or. Where the value of a modulus is zero, the powers of the element can be
computed on the numbers alone, by doubling, reducing and squaring.
-/
namespace Library.BinaryPolynomial
open scoped BigOperators

section Value
variable {R : Type*} [Ring R] (x : R)

/-- The value at `x` of the polynomial with the binary digits of `a`. -/
def value (a : ℕ) : R := ∑ k ∈ Finset.range (a + 1), if a.testBit k then x ^ k else 0

/-- Digits above the highest one add nothing. -/
theorem value_eq_sum {a n : ℕ} (h : a < 2 ^ n) :
    value x a = ∑ k ∈ Finset.range n, if a.testBit k then x ^ k else 0 := by
  have hmore : ∀ i j, i ≤ j → a < 2 ^ i →
      ∑ k ∈ Finset.range i, (if a.testBit k then x ^ k else 0) =
        ∑ k ∈ Finset.range j, if a.testBit k then x ^ k else 0 := by
    intro i j hij hi
    refine Finset.sum_subset (Finset.range_mono hij) fun k _ hk => ?_
    have hle : i ≤ k := not_lt.mp (mt Finset.mem_range.mpr hk)
    rw [Nat.testBit_lt_two_pow (hi.trans_le (Nat.pow_le_pow_right Nat.two_pos hle))]
    rfl
  have hself : a < 2 ^ (a + 1) := (Nat.lt_succ_self a).trans Nat.lt_two_pow_self
  rcases le_total (a + 1) n with hle | hle
  · exact hmore _ _ hle hself
  · exact (hmore _ _ hle h).symm

@[simp] theorem value_zero : value x 0 = 0 := by simp [value]

@[simp] theorem value_one : value x 1 = 1 := by
  rw [value_eq_sum x (by decide : 1 < 2 ^ 1), Finset.sum_range_one]
  simp

theorem value_two_mul (a : ℕ) : value x (2 * a) = x * value x a := by
  have ha : a < 2 ^ a := Nat.lt_two_pow_self
  have hdouble : 2 * a < 2 ^ (a + 1) := by
    rw [pow_succ']
    exact Nat.mul_lt_mul_of_pos_left ha Nat.two_pos
  rw [value_eq_sum x hdouble, value_eq_sum x ha, Finset.sum_range_succ', Finset.mul_sum]
  have hlow : (2 * a).testBit 0 = false := by simp
  rw [hlow, if_neg Bool.false_ne_true, add_zero]
  refine Finset.sum_congr rfl fun k _ => ?_
  have hshift : (2 * a).testBit (k + 1) = a.testBit k := by
    rw [Nat.testBit_succ, Nat.mul_div_cancel_left a Nat.two_pos]
  rw [hshift, mul_ite, mul_zero, pow_succ']

theorem value_two_pow_mul (n a : ℕ) : value x (2 ^ n * a) = x ^ n * value x a := by
  induction n with
  | zero => simp
  | succ n ih => rw [pow_succ', mul_assoc, value_two_mul, ih, pow_succ', mul_assoc]

theorem commute_value (a : ℕ) : Commute x (value x a) := by
  refine Commute.sum_right _ _ _ fun k _ => ?_
  split
  · exact Commute.self_pow x k
  · exact Commute.zero_right x

variable {x} (htwo : ∀ r : R, r + r = 0)
include htwo

theorem value_xor (a b : ℕ) : value x (a ^^^ b) = value x a + value x b := by
  have ha : a < 2 ^ (a + b) :=
    Nat.lt_two_pow_self.trans_le (Nat.pow_le_pow_right Nat.two_pos (Nat.le_add_right a b))
  have hb : b < 2 ^ (a + b) :=
    Nat.lt_two_pow_self.trans_le (Nat.pow_le_pow_right Nat.two_pos (Nat.le_add_left b a))
  rw [value_eq_sum x ha, value_eq_sum x hb, value_eq_sum x (Nat.xor_lt_two_pow ha hb),
    ← Finset.sum_add_distrib]
  refine Finset.sum_congr rfl fun k _ => ?_
  rw [Nat.testBit_xor]
  cases a.testBit k <;> cases b.testBit k <;> simp [htwo]

end Value

section Modulus

/-- Multiply by the variable and reduce by `p`, a polynomial of degree `d`. -/
def double (d p a : ℕ) : ℕ := if (2 * a).testBit d then 2 * a ^^^ p else 2 * a

/-- Add the multiples of `a` by the digits of `b` below the `n`-th, highest digit first. -/
def mulDigits (d p a b : ℕ) : ℕ → ℕ → ℕ
  | 0, acc => acc
  | n + 1, acc => mulDigits d p a b n (double d p acc ^^^ if b.testBit n then a else 0)

def mul (d p a b : ℕ) : ℕ := mulDigits d p a b (b.log2 + 1) 0

/-- The polynomial squared `n` times. -/
def squares (d p : ℕ) : ℕ → ℕ → ℕ
  | 0, a => a
  | n + 1, a => squares d p n (mul d p a a)

variable {R : Type*} [Ring R] {x : R} {p : ℕ} (htwo : ∀ r : R, r + r = 0) (hp : value x p = 0)
include htwo hp

theorem value_double (d a : ℕ) : value x (double d p a) = x * value x a := by
  unfold double
  split
  · rw [value_xor htwo, hp, add_zero, value_two_mul]
  · exact value_two_mul x a

theorem value_mulDigits (d a b n acc : ℕ) :
    value x (mulDigits d p a b n acc) = x ^ n * value x acc +
      (∑ k ∈ Finset.range n, if b.testBit k then x ^ k else 0) * value x a := by
  induction n generalizing acc with
  | zero => simp [mulDigits]
  | succ n ih =>
    have hdigit : value x (if b.testBit n then a else 0) =
        (if b.testBit n then 1 else 0) * value x a := by
      split <;> simp
    have hterm : x ^ n * (if b.testBit n then (1 : R) else 0) = if b.testBit n then x ^ n else 0 := by
      split <;> simp
    rw [mulDigits, ih, value_xor htwo, value_double htwo hp, hdigit, Finset.sum_range_succ,
      mul_add, ← mul_assoc, ← mul_assoc, hterm, ← pow_succ, add_mul, add_assoc,
      add_comm (_ * value x a)]

theorem value_mul (d a b : ℕ) : value x (mul d p a b) = value x b * value x a := by
  rw [mul, value_mulDigits htwo hp, value_zero, mul_zero, zero_add, ← value_eq_sum x Nat.lt_log2_self]

theorem value_squares (d n a : ℕ) : value x (squares d p n a) = value x a ^ 2 ^ n := by
  induction n generalizing a with
  | zero => rw [squares, pow_zero, pow_one]
  | succ n ih => rw [squares, ih, value_mul htwo hp, ← pow_two, ← pow_mul, pow_succ']

/-- A high power of an element at which the modulus vanishes. -/
theorem pow_two_pow (d n : ℕ) : x ^ 2 ^ n = value x (squares d p n 2) := by
  have htwo' : value x 2 = x := by rw [← mul_one 2, value_two_mul, value_one, mul_one]
  rw [value_squares htwo hp, htwo']

end Modulus

section Endomorphisms
variable {V : Type*} [AddCommGroup V]

/-- The value at `f` of the polynomial with the lowest `n` digits of `a`, applied to a vector. -/
def combine (f : V → V) : ℕ → ℕ → V → V
  | 0, _, _ => 0
  | n + 1, a, v => (if a.testBit 0 then v else 0) + combine f n (a / 2) (f v)

theorem combine_eq_sum (f : V → V) (n a : ℕ) (v : V) :
    combine f n a v = ∑ k ∈ Finset.range n, if a.testBit k then f^[k] v else 0 := by
  induction n generalizing a v with
  | zero => rfl
  | succ n ih =>
    rw [combine, ih, Finset.sum_range_succ', add_comm]
    simp only [Nat.testBit_succ, Function.iterate_succ_apply, Function.iterate_zero_apply]

theorem sum_apply (f : AddMonoid.End V) (n a : ℕ) (v : V) :
    (∑ k ∈ Finset.range n, if a.testBit k then f ^ k else 0) v =
      ∑ k ∈ Finset.range n, if a.testBit k then f^[k] v else 0 := by
  refine (AddMonoidHom.finsetSum_apply _ _ v).trans (Finset.sum_congr rfl fun k _ => ?_)
  split
  · exact congrFun (AddMonoid.End.coe_pow V f k) v
  · rfl

theorem combine_eq_value (f : AddMonoid.End V) {n a : ℕ} (h : a < 2 ^ n) (v : V) :
    combine f n a v = value f a v := by
  rw [combine_eq_sum, value_eq_sum f h, sum_apply]

end Endomorphisms

end Library.BinaryPolynomial
