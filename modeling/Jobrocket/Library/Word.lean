import Mathlib.Data.Nat.Bitwise
import Mathlib.Tactic

/-! # Machine words and atomic exchange

Unsigned words wrap around. The lemmas say when a successor or a predecessor is the
one of the natural numbers, how words are put together from their bits, and what a
strong compare-and-exchange does to the object and to the caller's expected value.
-/
namespace Library

theorem toNat_add_one {x : UInt64} (h : x.toNat + 1 < 2 ^ 64) : (x + 1).toNat = x.toNat + 1 := by
  rw [UInt64.toNat_add]
  exact Nat.mod_eq_of_lt h

theorem toNat_sub_one {x : UInt64} (h : 0 < x.toNat) : (x - 1).toNat = x.toNat - 1 := by
  have hx := x.toNat_lt
  rw [UInt64.toNat_sub]
  simp only [UInt64.toNat_one]
  omega

theorem word_trichotomy (x y : UInt64) : x < y ∨ x = y ∨ y < x := by
  rcases lt_trichotomy x.toNat y.toNat with h | h | h
  · exact Or.inl (UInt64.lt_iff_toNat_lt.mpr h)
  · exact Or.inr (Or.inl (UInt64.toNat_inj.mp h))
  · exact Or.inr (Or.inr (UInt64.lt_iff_toNat_lt.mpr h))

theorem toNat_add_one_of_lt {x y : UInt64} (h : x < y) : (x + 1).toNat = x.toNat + 1 := by
  have hy := y.toNat_lt
  have hxy := UInt64.lt_iff_toNat_lt.mp h
  exact toNat_add_one (by omega)

/-- A counter that wraps shows it by standing at zero. -/
theorem add_one_cases (x : UInt32) : (x + 1).toNat = x.toNat + 1 ∨ x + 1 = 0 := by
  have hx := x.toNat_lt
  have hadd : (x + 1).toNat = (x.toNat + 1) % 2 ^ 32 := UInt32.toNat_add x 1
  by_cases hlast : x.toNat + 1 < 2 ^ 32
  · exact Or.inl (hadd.trans (Nat.mod_eq_of_lt hlast))
  · refine Or.inr (UInt32.toNat_inj.mp ?_)
    rw [hadd, UInt32.toNat_zero]
    omega

/-- A signed word read as an unsigned one. -/
theorem toNat_toUInt32 (b : Int32) : (b.toUInt32.toNat : ℤ) = b.toInt % 2 ^ 32 := by
  have h := BitVec.toInt_eq_toNat_cond b.toBitVec
  rw [Int32.toInt_toBitVec, Int32.toNat_toBitVec] at h
  have hlt := b.toUInt32.toNat_lt
  split_ifs at h <;> omega

theorem xor_cancel (x y : UInt64) : x ^^^ y ^^^ y = x := by
  rw [UInt64.xor_assoc, UInt64.xor_self, UInt64.xor_zero]

theorem xor_cancel_pair (x y z : UInt64) : x ^^^ y ^^^ z ^^^ y ^^^ z = x := by
  rw [UInt64.xor_assoc x y z, UInt64.xor_comm y z, ← UInt64.xor_assoc x z y, xor_cancel, xor_cancel]

theorem xor_xor_comm (x y z w : UInt64) : x ^^^ y ^^^ (z ^^^ w) = x ^^^ z ^^^ (y ^^^ w) := by
  rw [UInt64.xor_assoc x y, ← UInt64.xor_assoc y z, UInt64.xor_comm y z, UInt64.xor_assoc z y,
    ← UInt64.xor_assoc x z]

theorem rotateLeft_xor {w : ℕ} (x y : BitVec w) (k : ℕ) :
    (x ^^^ y).rotateLeft k = x.rotateLeft k ^^^ y.rotateLeft k := by
  ext i hi
  simp only [BitVec.getElem_rotateLeft, BitVec.getElem_xor]
  split <;> rfl

/-- Two rotations that together go round the word. -/
theorem rotateLeft_rotateLeft {w j k : ℕ} (hj : j < w) (hk : k < w) (h : j + k = w)
    (x : BitVec w) : (x.rotateLeft j).rotateLeft k = x := by
  ext i hi
  simp only [BitVec.getElem_rotateLeft, Nat.mod_eq_of_lt hj, Nat.mod_eq_of_lt hk]
  split
  · rw [dif_neg (by omega)]
    congr 1
    omega
  · rw [dif_pos (by omega)]
    congr 1
    omega

theorem toNat_one_shiftLeft {k : ℕ} (h : k < 64) :
    ((1 : UInt64) <<< UInt64.ofNat k).toNat = 2 ^ k := by
  have hk : (UInt64.ofNat k).toNat = k := by
    rw [UInt64.toNat_ofNat']
    omega
  have hpow : 2 ^ k < 2 ^ 64 := Nat.pow_lt_pow_right (by decide) h
  rw [UInt64.toNat_shiftLeft, hk, UInt64.toNat_one, Nat.mod_eq_of_lt h, Nat.one_shiftLeft,
    Nat.mod_eq_of_lt hpow]

theorem testBit_toNat_iff {x : UInt64} {k : ℕ} (h : k < 64) :
    x &&& 1 <<< UInt64.ofNat k ≠ 0 ↔ x.toNat.testBit k = true := by
  have hnat : x &&& 1 <<< UInt64.ofNat k = 0 ↔ x.toNat &&& 2 ^ k = 0 := by
    rw [← UInt64.toNat_inj, UInt64.toNat_and, toNat_one_shiftLeft h, UInt64.toNat_zero]
  rw [ne_eq, not_congr hnat, Nat.and_two_pow]
  cases x.toNat.testBit k <;> simp

/-- What holds of the words with one bit and is kept by exclusive or holds of all words. -/
theorem word_induction {Q : UInt64 → Prop} (zero : Q 0)
    (bit : ∀ k < 64, Q (1 <<< UInt64.ofNat k)) (xor : ∀ x y, Q x → Q y → Q (x ^^^ y))
    (x : UInt64) : Q x := by
  have hall : ∀ n ≤ 64, ∀ x : UInt64, x.toNat < 2 ^ n → Q x := by
    intro n
    induction n with
    | zero =>
      intro _ x hx
      have hx0 : x = 0 := UInt64.toNat_inj.mp (Nat.lt_one_iff.mp hx)
      exact hx0 ▸ zero
    | succ n ih =>
      intro hn x hx
      by_cases hlow : x.toNat < 2 ^ n
      · exact ih (by omega) x hlow
      · -- without its highest bit the word is below the next smaller power
        have hhigh : x.toNat.testBit n = true :=
          Nat.testBit_of_two_pow_le_and_two_pow_add_one_gt (not_lt.mp hlow) hx
        have hrest : (x ^^^ 1 <<< UInt64.ofNat n).toNat < 2 ^ n := by
          rw [UInt64.toNat_xor, toNat_one_shiftLeft hn]
          refine Nat.lt_pow_two_of_testBit _ fun i hi => ?_
          rw [Nat.testBit_xor, Nat.testBit_two_pow]
          rcases hi.eq_or_lt with rfl | hlt
          · simp [hhigh]
          · have hzero : x.toNat.testBit i = false :=
              Nat.testBit_lt_two_pow (hx.trans_le (Nat.pow_le_pow_right Nat.two_pos hlt))
            simp [hzero, hlt.ne]
        rw [← xor_cancel x (1 <<< UInt64.ofNat n)]
        exact xor _ _ (ih (by omega) _ hrest) (bit n hn)
  exact hall 64 le_rfl x x.toNat_lt

/-- A strong compare-and-exchange: whether it succeeded, the caller's expected value
and the object afterwards. On failure the observed value is written into the
expected one. -/
def compareExchangeStrong (object expected desired : UInt64) : Bool × UInt64 × UInt64 :=
  if object = expected then (true, expected, desired) else (false, object, object)

@[simp] theorem compareExchangeStrong_self (object desired : UInt64) :
    compareExchangeStrong object object desired = (true, object, desired) := if_pos rfl

theorem compareExchangeStrong_ne {object expected : UInt64} (h : object ≠ expected)
    (desired : UInt64) :
    compareExchangeStrong object expected desired = (false, object, object) := if_neg h

end Library
