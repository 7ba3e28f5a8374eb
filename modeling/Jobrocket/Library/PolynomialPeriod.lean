import Jobrocket.Library.BinaryPolynomial
import Mathlib.Data.List.Prime
import Mathlib.Data.Set.Finite.Basic
import Mathlib.Dynamics.PeriodicPts.Defs

/-! # Periods from a table of prime factors

The power of an endomorphism at a number `n` is the identity, and at the cofactor of any prime
factor of `n` it fixes no vector but zero: then `n` is the period of all other vectors. Modulo
a polynomial that vanishes at the endomorphism, both are facts about numbers, and an inverse
for each prime factor makes the second one a product to be computed.
-/
namespace Library.BinaryPolynomial

section Powers

/-- `double` by arithmetic alone, so that its value can be computed before it is used. -/
def reduce (d p a : ℕ) : ℕ := 2 * a ^^^ p * (a >>> (d - 1) % 2)

/-- The product of `a` and the lowest `n` digits of `b`. -/
def times (d p a : ℕ) : ℕ → ℕ → ℕ
  | 0, _ => 0
  | n + 1, b => reduce d p (times d p a n (b / 2)) ^^^ a * (b % 2)

def product (d p a b : ℕ) : ℕ := times d p a (b.log2 + 1) b

/-- The square, times the variable if the digit is set. -/
def raise (d p a : ℕ) : Bool → ℕ
  | true => reduce d p (product d p a a)
  | false => product d p a a

/-- The power of the variable at the lowest `n` digits of `e`. -/
def power (d p : ℕ) : ℕ → ℕ → ℕ
  | 0, _ => 1
  | n + 1, e => raise d p (power d p n (e / 2)) (e.testBit 0)

variable {R : Type*} [Ring R] {x : R} {p : ℕ} (htwo : ∀ r : R, r + r = 0)
include htwo

theorem value_succ (b : ℕ) : value x b = x * value x (b / 2) + if b.testBit 0 then 1 else 0 := by
  have hdigit : value x (b % 2) = if b.testBit 0 then 1 else 0 := by
    rw [Nat.testBit_zero]
    rcases Nat.mod_two_eq_zero_or_one b with h | h <;> simp [h]
  have hxor : 2 * (b / 2) ^^^ b % 2 = b := by
    refine Nat.eq_of_testBit_eq fun k => ?_
    cases k with
    | zero => simp
    | succ k =>
      rw [Nat.testBit_succ, Nat.testBit_succ, Nat.xor_div_two, Nat.mul_div_cancel_left _ Nat.two_pos,
        Nat.div_eq_of_lt (Nat.mod_lt b Nat.two_pos), Nat.xor_zero]
  rw [← value_two_mul, ← hdigit, ← value_xor htwo, hxor]

variable (hp : value x p = 0)
include hp

theorem value_reduce (d a : ℕ) : value x (reduce d p a) = x * value x a := by
  have hmodulus : value x (p * (a >>> (d - 1) % 2)) = 0 := by
    rcases Nat.mod_two_eq_zero_or_one (a >>> (d - 1)) with h | h <;> simp [h, hp]
  rw [reduce, value_xor htwo, hmodulus, add_zero, value_two_mul]

theorem value_times {n b : ℕ} (h : b < 2 ^ n) (d a : ℕ) :
    value x (times d p a n b) = value x b * value x a := by
  induction n generalizing b with
  | zero =>
    obtain rfl : b = 0 := Nat.lt_one_iff.mp h
    simp [times]
  | succ n ih =>
    have hhalf : b / 2 < 2 ^ n := Nat.div_lt_of_lt_mul (by rwa [← pow_succ'])
    have hdigit : value x (a * (b % 2)) = (if b.testBit 0 then 1 else 0) * value x a := by
      rw [Nat.testBit_zero]
      rcases Nat.mod_two_eq_zero_or_one b with hb | hb <;> simp [hb]
    rw [times, value_xor htwo, value_reduce htwo hp, ih hhalf, hdigit, value_succ htwo b, add_mul,
      mul_assoc]

theorem value_product (d a b : ℕ) : value x (product d p a b) = value x b * value x a :=
  value_times htwo hp Nat.lt_log2_self d a

theorem value_raise (d a : ℕ) (digit : Bool) :
    value x (raise d p a digit) = x ^ digit.toNat * value x a ^ 2 := by
  cases digit with
  | false => rw [raise, value_product htwo hp, Bool.toNat_false, pow_zero, one_mul, pow_two]
  | true =>
    rw [raise, value_reduce htwo hp, value_product htwo hp, Bool.toNat_true, pow_one, pow_two]

theorem value_power {n e : ℕ} (h : e < 2 ^ n) (d : ℕ) : value x (power d p n e) = x ^ e := by
  induction n generalizing e with
  | zero =>
    obtain rfl : e = 0 := Nat.lt_one_iff.mp h
    rw [power, value_one, pow_zero]
  | succ n ih =>
    have hhalf : e / 2 < 2 ^ n := Nat.div_lt_of_lt_mul (by rwa [← pow_succ'])
    have hdigits : (e.testBit 0).toNat + e / 2 * 2 = e := by
      rw [Nat.testBit_zero]
      rcases Nat.mod_two_eq_zero_or_one e with he | he <;> simp [he] <;> omega
    rw [power, value_raise htwo hp, ih hhalf, ← pow_mul, ← pow_add, hdigits]

end Powers

section Periods
open Function
variable {V : Type*} [AddCommGroup V] {f : AddMonoid.End V}

/-- A power that is the identity, and no smaller power of which fixes a vector but zero. -/
theorem minimalPeriod_eq {n : ℕ} (hpow : f ^ n = 1)
    (hfix : ∀ q, q.Prime → q ∣ n → ∀ v, (f ^ (n / q)) v = v → v = 0) {v : V} (hv : v ≠ 0) :
    minimalPeriod f v = n := by
  have hperiodic : ∀ m, IsPeriodicPt f m v ↔ (f ^ m) v = v := fun m => by
    rw [AddMonoid.End.coe_pow, IsPeriodicPt, IsFixedPt]
  have hwhole : IsPeriodicPt f n v := (hperiodic n).mpr (by rw [hpow, AddMonoid.End.coe_one, id])
  obtain ⟨c, hc⟩ := hwhole.minimalPeriod_dvd
  by_contra hne
  have hc1 : c ≠ 1 := fun h => hne (by rw [hc, h, mul_one])
  -- A prime factor of the cofactor would leave a smaller multiple of the period.
  obtain ⟨q, hq, hqc⟩ := Nat.exists_prime_and_dvd hc1
  have hdvd : q ∣ n := hc ▸ hqc.mul_left _
  refine hv (hfix q hq hdvd v ((hperiodic _).mp ?_))
  rw [isPeriodicPt_iff_minimalPeriod_dvd, hc, Nat.mul_div_assoc _ hqc]
  exact dvd_mul_right _ _

/-- A table of prime factors of `n`, each with the inverse of the difference from one of the
power at its cofactor. -/
def isPeriod (d p n : ℕ) (table : List (ℕ × ℕ)) : Bool :=
  power d p (n.log2 + 1) n == 1 &&
    table.all fun c => product d p (power d p (n.log2 + 1) (n / c.1) ^^^ 1) c.2 == 1

theorem minimalPeriod_of_table (htwo : ∀ g : AddMonoid.End V, g + g = 0) {d p n : ℕ}
    (hp : value f p = 0) {table : List (ℕ × ℕ)} (hprime : ∀ c ∈ table, c.1.Prime)
    (hprod : (table.map Prod.fst).prod = n) (htable : isPeriod d p n table = true)
    {v : V} (hv : v ≠ 0) : minimalPeriod f v = n := by
  obtain ⟨hone, hall⟩ := Bool.and_eq_true_iff.mp htable
  refine minimalPeriod_eq ?_ (fun q hq hdvd v hfixed => ?_) hv
  · rw [← value_power htwo hp Nat.lt_log2_self d, beq_iff_eq.mp hone, value_one]
  · obtain ⟨a, ha, hqa⟩ := (Prime.dvd_prod_iff hq.prime).mp (hprod ▸ hdvd)
    obtain ⟨c, hc, rfl⟩ := List.mem_map.mp ha
    have hqc : q = c.1 := (Nat.prime_dvd_prime_iff_eq hq (hprime c hc)).mp hqa
    have hsmall : n / c.1 < 2 ^ (n.log2 + 1) := (Nat.div_le_self _ _).trans_lt Nat.lt_log2_self
    have hinverse : value f c.2 * (f ^ (n / c.1) + 1) = 1 := by
      have h := congrArg (value f) (beq_iff_eq.mp (List.all_eq_true.mp hall c hc))
      rwa [value_product htwo hp, value_xor htwo, value_power htwo hp hsmall, value_one] at h
    have hsum : (f ^ (n / c.1) + 1) v = 0 := by
      have hdouble : (1 + 1 : AddMonoid.End V) v = 0 := by rw [htwo]; rfl
      rw [hqc] at hfixed
      exact (congrArg (· + v) hfixed).trans hdouble
    calc v = (value f c.2 * (f ^ (n / c.1) + 1)) v := by rw [hinverse, AddMonoid.End.coe_one, id]
      _ = value f c.2 ((f ^ (n / c.1) + 1) v) := rfl
      _ = 0 := by rw [hsum, map_zero]

end Periods

section Orbits
open Function
variable {α : Type*} {f : α → α} {a : α}

/-- An orbit as long as a set that it stays in visits each element of the set once a round. -/
theorem existsUnique_iterate {s : Set α} (hs : s.Finite) (hstay : ∀ n, f^[n] a ∈ s)
    (hcard : s.ncard = minimalPeriod f a) {b : α} (hb : b ∈ s) :
    ∃! n, n < minimalPeriod f a ∧ f^[n] a = b := by
  have hinj : Set.InjOn (f^[·] a) (Set.Iio (minimalPeriod f a)) := iterate_injOn_Iio_minimalPeriod
  have himage : (fun n => f^[n] a) '' Set.Iio (minimalPeriod f a) = s := by
    refine Set.eq_of_subset_of_ncard_le ?_ ?_ hs
    · rintro _ ⟨n, -, rfl⟩
      exact hstay n
    · rw [hinj.ncard_image, hcard, ← Finset.coe_range, Set.ncard_coe_finset, Finset.card_range]
  obtain ⟨n, hn, hnb⟩ := himage.symm ▸ hb
  exact ⟨n, ⟨hn, hnb⟩, fun m hm => hinj hm.1 hn (hm.2.trans hnb.symm)⟩

end Orbits

end Library.BinaryPolynomial
