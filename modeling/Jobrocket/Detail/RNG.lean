import Jobrocket.Library.BinaryPolynomial
import Jobrocket.Library.Machine
import Jobrocket.Library.Word

/-! # The random number generator

A state is two 64-bit words. The update is built from exclusive or, shifts and rotations,
so it is additive for exclusive or, and it can be undone.
-/
namespace Jobrocket
open Library BinaryPolynomial

structure Xoroshiro128 where
  s0 : UInt64
  s1 : UInt64
  deriving DecidableEq, Inhabited

namespace Xoroshiro128

def rotl (x k : UInt64) : UInt64 := (x <<< k) ||| (x >>> (64 - k))

def next (r : Xoroshiro128) : UInt64 × Xoroshiro128 :=
  let s1 := r.s1 ^^^ r.s0
  (r.s0 + r.s1, { s0 := rotl r.s0 55 ^^^ s1 ^^^ (s1 <<< 14), s1 := rotl s1 36 })

def jumpWords : List UInt64 := [0xbeac0467eba5facb, 0xd86b048b86aa9922]

/-- The body of the loops of `jump`: the words summed up so far, and the generator. -/
def jumpBit (i : UInt64) : (UInt64 × UInt64) × Xoroshiro128 → ℕ → (UInt64 × UInt64) × Xoroshiro128
  | ((s0, s1), r), b =>
    (if i &&& 1 <<< UInt64.ofNat b ≠ 0 then (s0 ^^^ r.s0, s1 ^^^ r.s1) else (s0, s1), r.next.2)

/-- The inner loop. -/
def jumpWord (acc : (UInt64 × UInt64) × Xoroshiro128) (i : UInt64) :
    (UInt64 × UInt64) × Xoroshiro128 :=
  (List.range 64).foldl (jumpBit i) acc

def jump (r : Xoroshiro128) : Xoroshiro128 :=
  let acc := jumpWords.foldl jumpWord ((0, 0), r)
  { s0 := acc.1.1, s1 := acc.1.2 }

/-- The state before the update. -/
def previous (r : Xoroshiro128) : Xoroshiro128 :=
  let s1 := rotl r.s1 28
  let s0 := rotl (r.s0 ^^^ s1 ^^^ (s1 <<< 14)) 9
  { s0 := s0, s1 := s1 ^^^ s0 }

section Rotations

theorem toBitVec_rotl {k : UInt64} (hpos : 0 < k.toNat) (hk : k.toNat < 64) (x : UInt64) :
    (rotl x k).toBitVec = x.toBitVec.rotateLeft k.toNat := by
  have hback : (64 - k).toNat = 64 - k.toNat := by
    have hle : k ≤ 64 := UInt64.le_iff_toNat_le.mpr hk.le
    rw [UInt64.toNat_sub_of_le _ _ hle]
    rfl
  have hleft : (x <<< k).toBitVec = x.toBitVec <<< k.toNat := by
    rw [← BitVec.toNat_inj, UInt64.toNat_toBitVec, UInt64.toNat_shiftLeft, Nat.mod_eq_of_lt hk,
      BitVec.toNat_shiftLeft, UInt64.toNat_toBitVec]
  have hright : (x >>> (64 - k)).toBitVec = x.toBitVec >>> (64 - k.toNat) := by
    rw [← BitVec.toNat_inj, UInt64.toNat_toBitVec, UInt64.toNat_shiftRight, hback,
      Nat.mod_eq_of_lt (by omega), BitVec.toNat_ushiftRight, UInt64.toNat_toBitVec]
  rw [rotl, UInt64.toBitVec_or, hleft, hright, BitVec.rotateLeft_def, Nat.mod_eq_of_lt hk]

theorem rotl_xor {k : UInt64} (hpos : 0 < k.toNat) (hk : k.toNat < 64) (x y : UInt64) :
    rotl (x ^^^ y) k = rotl x k ^^^ rotl y k := by
  rw [← UInt64.toBitVec_inj, UInt64.toBitVec_xor, toBitVec_rotl hpos hk, toBitVec_rotl hpos hk,
    toBitVec_rotl hpos hk, UInt64.toBitVec_xor, rotateLeft_xor]

theorem rotl_rotl {j k : UInt64} (hj : 0 < j.toNat) (hk : 0 < k.toNat)
    (h : j.toNat + k.toNat = 64) (x : UInt64) : rotl (rotl x j) k = x := by
  rw [← UInt64.toBitVec_inj, toBitVec_rotl hk (by omega), toBitVec_rotl hj (by omega),
    rotateLeft_rotateLeft (by omega) (by omega) h]

end Rotations

section Inverse
variable (r : Xoroshiro128)

theorem previous_next : previous r.next.2 = r := by
  have hs1 : rotl (rotl (r.s1 ^^^ r.s0) 36) 28 = r.s1 ^^^ r.s0 :=
    rotl_rotl (by decide) (by decide) (by decide) _
  have hs0 : rotl (rotl r.s0 55) 9 = r.s0 := rotl_rotl (by decide) (by decide) (by decide) _
  simp only [previous, next, hs1, xor_cancel_pair, hs0, xor_cancel]

theorem next_previous : (previous r).next.2 = r := by
  have hs1 : rotl (rotl r.s1 28) 36 = r.s1 := rotl_rotl (by decide) (by decide) (by decide) _
  have hs0 : ∀ x, rotl (rotl x 9) 55 = x := fun x =>
    rotl_rotl (by decide) (by decide) (by decide) x
  simp only [previous, next, xor_cancel, hs1, hs0, xor_cancel_pair]

end Inverse

section Group

instance : Add Xoroshiro128 := ⟨fun r s => ⟨r.s0 ^^^ s.s0, r.s1 ^^^ s.s1⟩⟩
instance : Zero Xoroshiro128 := ⟨⟨0, 0⟩⟩
instance : Neg Xoroshiro128 := ⟨id⟩

theorem add_def (r s : Xoroshiro128) : r + s = ⟨r.s0 ^^^ s.s0, r.s1 ^^^ s.s1⟩ := rfl
theorem zero_def : (0 : Xoroshiro128) = ⟨0, 0⟩ := rfl
theorem neg_def (r : Xoroshiro128) : -r = r := rfl

/-- The states under exclusive or. -/
instance : AddCommGroup Xoroshiro128 where
  add_assoc r s u := by simp only [add_def, UInt64.xor_assoc]
  zero_add r := by simp only [add_def, zero_def, UInt64.zero_xor]
  add_zero r := by simp only [add_def, zero_def, UInt64.xor_zero]
  neg_add_cancel r := by simp only [add_def, zero_def, neg_def, UInt64.xor_self]
  add_comm r s := by simp only [add_def, UInt64.xor_comm]
  nsmul := nsmulRec
  zsmul := zsmulRec

theorem add_self (r : Xoroshiro128) : r + r = 0 := neg_add_cancel r

/-- The update of the state is additive. -/
def advance : AddMonoid.End Xoroshiro128 where
  toFun r := r.next.2
  map_zero' := by decide
  map_add' r s := by
    have h55 : rotl (r.s0 ^^^ s.s0) 55 = rotl r.s0 55 ^^^ rotl s.s0 55 :=
      rotl_xor (by decide) (by decide) _ _
    have h36 : rotl (r.s1 ^^^ r.s0 ^^^ (s.s1 ^^^ s.s0)) 36 =
        rotl (r.s1 ^^^ r.s0) 36 ^^^ rotl (s.s1 ^^^ s.s0) 36 :=
      rotl_xor (by decide) (by decide) _ _
    simp only [add_def, next, xor_xor_comm r.s1, h55, h36, UInt64.shiftLeft_xor, mk.injEq, and_true]
    rw [xor_xor_comm (rotl r.s0 55), xor_xor_comm (rotl r.s0 55 ^^^ (r.s1 ^^^ r.s0))]

@[simp] theorem advance_apply (r : Xoroshiro128) : advance r = r.next.2 := rfl

theorem advance_pow_apply (n : ℕ) (r : Xoroshiro128) :
    (advance ^ n) r = (fun s => s.next.2)^[n] r :=
  congrFun (AddMonoid.End.coe_pow Xoroshiro128 advance n) r

theorem end_add_self (f : AddMonoid.End Xoroshiro128) : f + f = 0 :=
  AddMonoidHom.ext fun r => add_self (f r)

theorem add_mul_apply (e f g : AddMonoid.End Xoroshiro128) (r : Xoroshiro128) :
    (e + f * g) r = e r + f (g r) := rfl

theorem commute_apply {f g : AddMonoid.End Xoroshiro128} (h : Commute f g) (r : Xoroshiro128) :
    f (g r) = g (f r) := by
  have h := congrArg (fun e : AddMonoid.End Xoroshiro128 => e r) h.eq
  exact h

/-- The update brings any word into the second place. -/
theorem exists_advance_eq (y : UInt64) : ∃ z, advance ⟨rotl y 28, 0⟩ = ⟨z, y⟩ := by
  have hy : rotl (rotl y 28) 36 = y := rotl_rotl (by decide) (by decide) (by decide) y
  exact ⟨_, by rw [advance_apply, next, UInt64.zero_xor, hy]⟩

/-- An additive map that commutes with the update is zero if it is on the states whose first
word has one bit and whose second word has none. -/
theorem end_eq_zero {f : AddMonoid.End Xoroshiro128} (hcomm : Commute advance f)
    (h : ∀ k < 64, f ⟨1 <<< UInt64.ofNat k, 0⟩ = 0) : f = 0 := by
  have hs0 : ∀ x, f ⟨x, 0⟩ = 0 := by
    refine word_induction (map_zero f) h fun x y hx hy => ?_
    have hsum : (⟨x ^^^ y, 0⟩ : Xoroshiro128) = ⟨x, 0⟩ + ⟨y, 0⟩ := by
      rw [add_def, UInt64.xor_zero]
    rw [hsum, map_add, hx, hy, add_zero]
  have hsplit : ∀ x y, f ⟨x, y⟩ = f ⟨0, y⟩ := by
    intro x y
    have hsum : (⟨x, y⟩ : Xoroshiro128) = ⟨x, 0⟩ + ⟨0, y⟩ := by
      rw [add_def, UInt64.xor_zero, UInt64.zero_xor]
    rw [hsum, map_add, hs0, zero_add]
  have hs1 : ∀ y, f ⟨0, y⟩ = 0 := by
    intro y
    obtain ⟨z, hz⟩ := exists_advance_eq y
    have hswap : f (advance ⟨rotl y 28, 0⟩) = 0 := by
      rw [← commute_apply hcomm, hs0, map_zero]
    rwa [hz, hsplit] at hswap
  exact AddMonoidHom.ext fun r => (hsplit r.s0 r.s1).trans (hs1 r.s1)

end Group

end Xoroshiro128

end Jobrocket
