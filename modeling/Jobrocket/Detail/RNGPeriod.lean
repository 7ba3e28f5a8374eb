import Jobrocket.Detail.RNGJump
import Jobrocket.Library.PolynomialPeriod
import Mathlib.Data.Int.CardIntervalMod
import Mathlib.Data.Set.Card
import Mathlib.NumberTheory.LucasPrimality
import Mathlib.Tactic.ReduceModChar

/-! # The period of the generator

All states but the one of two zero words lie on one cycle of the update. So the numbers drawn
in one round are known up to their order, and so is what the subsequences that start a jump
apart have in common.
-/
namespace Jobrocket.Xoroshiro128
open Library BinaryPolynomial
open Function (minimalPeriod iterate_mod_minimalPeriod_eq
  iterate_eq_iterate_iff_of_lt_minimalPeriod iterate_add_apply iterate_mul)

section Period

theorem prime_67280421310721 : Nat.Prime 67280421310721 := by
  have hfactors : 67280421310721 - 1 = 2 ^ 8 * 5 * 47 * 373 * 2998279 := by norm_num
  have h47 : Nat.Prime 47 := by norm_num
  have h373 : Nat.Prime 373 := by norm_num
  have h2998279 : Nat.Prime 2998279 := by norm_num
  refine lucas_primality _ 3 (by reduce_mod_char) fun q hq hdvd => ?_
  have hcases : q = 2 ∨ q = 5 ∨ q = 47 ∨ q = 373 ∨ q = 2998279 := by
    rw [hfactors] at hdvd
    simp only [hq.prime.dvd_mul] at hdvd
    rcases hdvd with (((h | h) | h) | h) | h
    · exact .inl ((Nat.prime_dvd_prime_iff_eq hq Nat.prime_two).mp (hq.dvd_of_dvd_pow h))
    · exact .inr (.inl ((Nat.prime_dvd_prime_iff_eq hq Nat.prime_five).mp h))
    · exact .inr (.inr (.inl ((Nat.prime_dvd_prime_iff_eq hq h47).mp h)))
    · exact .inr (.inr (.inr (.inl ((Nat.prime_dvd_prime_iff_eq hq h373).mp h))))
    · exact .inr (.inr (.inr (.inr ((Nat.prime_dvd_prime_iff_eq hq h2998279).mp h))))
  rcases hcases with rfl | rfl | rfl | rfl | rfl <;> reduce_mod_char <;> decide +kernel

/-- The prime factors of `2 ^ 128 - 1`, each with the inverse of the power of the variable at
its cofactor, less one. -/
def factors : List (ℕ × ℕ) :=
  [(3, 0xff8cefb76846895353ca0f0fe69d9ac1), (5, 0x44746645e1e994f5f0fe77cc421dfaaa),
    (17, 0x32c47704c6cdf7931acf2a818a19f62d), (257, 0x96f288cba5870497fd983bf5d14bdbeb),
    (641, 0xa7e437605ed5e3ae3e409dba24fc1dcd), (65537, 0xecb57a9ef6f5a6fff4387293b32f3b0c),
    (274177, 0xe9e260cf9faf324aeb4d0d5da638cf50), (6700417, 0x14ca8334099b25f5a6585d516b1fd6f1),
    (67280421310721, 0x139bd4d8ba1f6134c128219c7d36e79d)]

theorem prime_of_mem_factors : ∀ c ∈ factors, c.1.Prime := by
  simp only [factors, List.mem_cons, List.not_mem_nil, or_false, forall_eq_or_imp, forall_eq]
  exact ⟨Nat.prime_three, Nat.prime_five, by norm_num, by norm_num, by norm_num, by norm_num,
    by norm_num, by norm_num, prime_67280421310721⟩

theorem isPeriod_factors : isPeriod 128 modulus (2 ^ 128 - 1) factors = true := by decide +kernel

theorem minimalPeriod_next {r : Xoroshiro128} (hr : r ≠ 0) :
    minimalPeriod (fun s : Xoroshiro128 => s.next.2) r = 2 ^ 128 - 1 := by
  have hprod : (factors.map Prod.fst).prod = 2 ^ 128 - 1 := by decide
  exact minimalPeriod_of_table end_add_self value_modulus prime_of_mem_factors hprod
    isPeriod_factors hr

theorem iterate_eq_iff {r : Xoroshiro128} (hr : r ≠ 0) (m n : ℕ) :
    (fun s => s.next.2)^[m] r = (fun s => s.next.2)^[n] r ↔
      m % (2 ^ 128 - 1) = n % (2 ^ 128 - 1) := by
  have hpos : 0 < 2 ^ 128 - 1 := by norm_num
  have hmod : ∀ k, (fun s : Xoroshiro128 => s.next.2)^[k % (2 ^ 128 - 1)] r =
      (fun s => s.next.2)^[k] r := fun k => by
    rw [← minimalPeriod_next hr, iterate_mod_minimalPeriod_eq]
  have hlt : ∀ k, k % (2 ^ 128 - 1) < minimalPeriod (fun s : Xoroshiro128 => s.next.2) r :=
    fun k => by rw [minimalPeriod_next hr]; exact Nat.mod_lt k hpos
  rw [← hmod m, ← hmod n, iterate_eq_iterate_iff_of_lt_minimalPeriod (hlt m) (hlt n)]

end Period

section States

/-- A state is its two words. -/
def words : Xoroshiro128 ≃ UInt64 × UInt64 where
  toFun r := (r.s0, r.s1)
  invFun w := ⟨w.1, w.2⟩

/-- A state is its first word and the number drawn from it. -/
def drawnWords : Xoroshiro128 ≃ UInt64 × UInt64 where
  toFun r := (r.s0, r.next.1)
  invFun w := ⟨w.1, w.2 - w.1⟩
  left_inv r := by
    have hsub : r.s0 + r.s1 - r.s0 = r.s1 := by rw [UInt64.add_comm, UInt64.add_sub_cancel]
    simp only [next, hsub]
  right_inv w := by
    have hadd : w.1 + (w.2 - w.1) = w.2 := by rw [UInt64.add_comm, UInt64.sub_add_cancel]
    simp only [next, hadd]

def wordIndex : UInt64 ≃ Fin (2 ^ 64) where
  toFun x := x.toFin
  invFun i := ⟨⟨i⟩⟩

instance : Finite UInt64 := Finite.of_equiv _ wordIndex.symm

instance : Finite Xoroshiro128 := Finite.of_equiv _ words.symm

theorem card_word : Nat.card UInt64 = 2 ^ 64 :=
  (Nat.card_congr wordIndex).trans (Nat.card_fin _)

theorem card_state : Nat.card Xoroshiro128 = 2 ^ 128 := by
  rw [Nat.card_congr words, Nat.card_prod, card_word]
  norm_num

/-- Every first word occurs once with every number drawn. -/
theorem ncard_drawn (a : Set UInt64) :
    {r : Xoroshiro128 | r.next.1 ∈ a}.ncard = 2 ^ 64 * a.ncard := by
  have hpreimage : {r : Xoroshiro128 | r.next.1 ∈ a} = Set.preimage drawnWords (Set.univ ×ˢ a) := by
    ext r
    simp [drawnWords]
  rw [hpreimage, Set.ncard_preimage_of_injective_subset_range drawnWords.injective (by simp),
    Set.ncard_prod, Set.ncard_univ, card_word]

theorem ncard_mod {n i : ℕ} (hi : i < n) :
    {x : UInt64 | x.toNat % n = i}.ncard = 2 ^ 64 / n + if i < 2 ^ 64 % n then 1 else 0 := by
  have hpos : 0 < n := Nat.zero_lt_of_lt hi
  have hpreimage : {x : UInt64 | x.toNat % n = i} =
      Set.preimage UInt64.toNat {k | k < 2 ^ 64 ∧ k ≡ i [MOD n]} := by
    ext x
    simp [Nat.ModEq, Nat.mod_eq_of_lt hi, x.toNat_lt]
  have hrange : {k | k < 2 ^ 64 ∧ k ≡ i [MOD n]} ⊆ Set.range UInt64.toNat := by
    rintro k ⟨hk, -⟩
    exact ⟨UInt64.ofNat k, UInt64.toNat_ofNat_of_lt hk⟩
  have hfilter : {k | k < 2 ^ 64 ∧ k ≡ i [MOD n]} =
      ((Finset.range (2 ^ 64)).filter fun k => k ≡ i [MOD n] : Finset ℕ) := by
    ext k
    simp only [Set.mem_ofPred_eq, Finset.coe_filter, Finset.mem_range]
  have hinj : Function.Injective UInt64.toNat := fun _ _ => UInt64.toNat_inj.mp
  rw [hpreimage, Set.ncard_preimage_of_injective_subset_range hinj hrange, hfilter,
    Set.ncard_coe_finset, ← Nat.count_eq_card_filter_range, Nat.count_modEq_card _ hpos,
    Nat.mod_eq_of_lt hi]

end States

section Round
variable {r : Xoroshiro128} (hr : r ≠ 0)
include hr

theorem iterate_ne_zero (n : ℕ) : (fun s => s.next.2)^[n] r ≠ 0 := by
  induction n with
  | zero => exact hr
  | succ n ih =>
    rw [Function.iterate_succ_apply']
    exact fun h => ih (next_bijective.injective (h.trans (map_zero advance).symm))

theorem existsUnique_turn {s : Xoroshiro128} (hs : s ≠ 0) :
    ∃! n, n < 2 ^ 128 - 1 ∧ (fun s => s.next.2)^[n] r = s := by
  have hcompl : {s : Xoroshiro128 | s ≠ 0} = {0}ᶜ := rfl
  have hcard : {s : Xoroshiro128 | s ≠ 0}.ncard =
      minimalPeriod (fun s : Xoroshiro128 => s.next.2) r := by
    rw [hcompl, Set.ncard_compl, Set.ncard_singleton, card_state, minimalPeriod_next hr]
  rw [← minimalPeriod_next hr]
  exact existsUnique_iterate (Set.toFinite {s | s ≠ 0}) (iterate_ne_zero hr) hcard hs

/-- A round meets each state but zero once, so it lacks the number drawn from that one. -/
theorem ncard_round (a : Set UInt64) [Decidable ((0 : UInt64) ∈ a)] :
    {n | n < 2 ^ 128 - 1 ∧ ((fun s => s.next.2)^[n] r).next.1 ∈ a}.ncard =
      2 ^ 64 * a.ncard - if (0 : UInt64) ∈ a then 1 else 0 := by
  have hinj : Set.InjOn (fun n => (fun s => s.next.2)^[n] r)
      {n | n < 2 ^ 128 - 1 ∧ ((fun s => s.next.2)^[n] r).next.1 ∈ a} := by
    intro m hm n hn h
    exact (existsUnique_turn hr (iterate_ne_zero hr n)).unique ⟨hm.1, h⟩ ⟨hn.1, rfl⟩
  have himage : (fun n => (fun s => s.next.2)^[n] r) ''
      {n | n < 2 ^ 128 - 1 ∧ ((fun s => s.next.2)^[n] r).next.1 ∈ a} =
      {s | s.next.1 ∈ a} \ {0} := by
    ext s
    constructor
    · rintro ⟨n, hn, rfl⟩
      exact ⟨hn.2, iterate_ne_zero hr n⟩
    · rintro ⟨hs, hne⟩
      obtain ⟨n, ⟨hn, rfl⟩, -⟩ := existsUnique_turn hr hne
      exact ⟨n, ⟨hn, hs⟩, rfl⟩
  have hdrawn : (0 : Xoroshiro128).next.1 = 0 := rfl
  rw [← hinj.ncard_image, himage, ← ncard_drawn]
  split
  · exact Set.ncard_sdiff_singleton_of_mem (by rwa [Set.mem_ofPred_eq, hdrawn])
  · rw [Set.sdiff_singleton_eq_self (by rwa [Set.mem_ofPred_eq, hdrawn]), Nat.sub_zero]

end Round

/-- From every state but the one of two zero words the update runs through all such states
before it comes back. -/
theorem single_cycle {r : Xoroshiro128} (hr : r ≠ ⟨0, 0⟩) :
    minimalPeriod (fun s : Xoroshiro128 => s.next.2) r = 2 ^ 128 - 1 ∧
      ∀ s : Xoroshiro128, s ≠ ⟨0, 0⟩ →
        ∃! n, n < 2 ^ 128 - 1 ∧ (fun s => s.next.2)^[n] r = s :=
  ⟨minimalPeriod_next hr, fun _ => existsUnique_turn hr⟩

/-- The seed of the workers. -/
theorem single_cycle_seed :
    minimalPeriod (fun s : Xoroshiro128 => s.next.2) ⟨1, 2⟩ = 2 ^ 128 - 1 :=
  (single_cycle (by decide)).1

/-- How often a round draws a number, and how often it draws a victim among the workers. -/
theorem draws_per_round {r : Xoroshiro128} (hr : r ≠ ⟨0, 0⟩) :
    (∀ x, {n | n < 2 ^ 128 - 1 ∧ ((fun s => s.next.2)^[n] r).next.1 = x}.ncard =
        if x = 0 then 2 ^ 64 - 1 else 2 ^ 64) ∧
      ∀ workers, ∀ i < workers,
        {n | n < 2 ^ 128 - 1 ∧ victim ((fun s => s.next.2)^[n] r) workers = i}.ncard =
          2 ^ 64 * (2 ^ 64 / workers + if i < 2 ^ 64 % workers then 1 else 0) -
            if i = 0 then 1 else 0 := by
  constructor
  · intro x
    have hround := ncard_round hr {x}
    rw [Set.ncard_singleton, mul_one] at hround
    have hzero : (0 : UInt64) ∈ ({x} : Set UInt64) ↔ x = 0 := by
      rw [Set.mem_singleton_iff, eq_comm]
    refine hround.trans ?_
    by_cases hx : x = 0
    · rw [if_pos hx, if_pos (hzero.mpr hx)]
    · rw [if_neg hx, if_neg (mt hzero.mp hx), Nat.sub_zero]
  · intro workers i hi
    have hround := ncard_round hr {x | x.toNat % workers = i}
    rw [ncard_mod hi] at hround
    have hzero : (0 : UInt64) ∈ {x : UInt64 | x.toNat % workers = i} ↔ i = 0 := by
      rw [Set.mem_ofPred_eq, UInt64.toNat_zero, Nat.zero_mod, eq_comm]
    exact hround.trans (congrArg (_ - ·) (if_congr hzero rfl rfl))

/-- A round from the seed of the workers draws zero once less than every other number. -/
theorem draws_per_round_seed :
    {n | n < 2 ^ 128 - 1 ∧
      ((fun s => s.next.2)^[n] (⟨1, 2⟩ : Xoroshiro128)).next.1 = 0}.ncard = 2 ^ 64 - 1 :=
  (draws_per_round (by decide)).1 0

section Streams

theorem iterate_jump (r : Xoroshiro128) (i j : ℕ) :
    (fun s => s.next.2)^[j] (jump^[i] r) = (fun s => s.next.2)^[j + 2 ^ 64 * i] r := by
  rw [jump_eq, ← iterate_mul, ← iterate_add_apply]

/-- The subsequences of `2 ^ 64` calls that start a jump apart, `2 ^ 64` of them, overlap in one
place: the last state of the last one is the first state of the first one. -/
theorem streams_overlap {r : Xoroshiro128} (hr : r ≠ ⟨0, 0⟩) {i j i' j' : ℕ} (hi : i < 2 ^ 64)
    (hj : j < 2 ^ 64) (hi' : i' < 2 ^ 64) (hj' : j' < 2 ^ 64) :
    (fun s => s.next.2)^[j] (jump^[i] r) = (fun s => s.next.2)^[j'] (jump^[i'] r) ↔
      (i, j) = (i', j') ∨ (i, j) = (0, 0) ∧ (i', j') = (2 ^ 64 - 1, 2 ^ 64 - 1) ∨
        (i, j) = (2 ^ 64 - 1, 2 ^ 64 - 1) ∧ (i', j') = (0, 0) := by
  have hmod : ∀ k ≤ 2 ^ 128 - 1, k % (2 ^ 128 - 1) = if k = 2 ^ 128 - 1 then 0 else k := by
    intro k hk
    split
    · next h => rw [h, Nat.mod_self]
    · next h => exact Nat.mod_eq_of_lt (lt_of_le_of_ne hk h)
  rw [iterate_jump, iterate_jump, iterate_eq_iff hr, hmod _ (by omega), hmod _ (by omega)]
  simp only [Prod.mk.injEq]
  split <;> split <;> omega

/-- The seed of the workers. -/
theorem streams_overlap_seed :
    (fun s => s.next.2)^[2 ^ 64 - 1] (jump^[2 ^ 64 - 1] ⟨1, 2⟩) = (⟨1, 2⟩ : Xoroshiro128) :=
  (streams_overlap (r := ⟨1, 2⟩) (by decide) (by norm_num) (by norm_num) (by norm_num)
    (by norm_num)).mpr (.inr (.inr ⟨rfl, rfl⟩))

end Streams

end Jobrocket.Xoroshiro128
