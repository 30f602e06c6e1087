import Mathlib

/-! Operations that mix the bits of a machine word and lose none of them: a
word is recovered from its exclusive or with its own shift, from a rotation,
and from a product with a number that has an inverse. -/

namespace WordMix

open Function

variable {w : Nat}

/-- What two words with one image differ in would be its own shift. -/
theorem xor_shiftRight_injective {s : Nat} (hs : 0 < s) :
    Injective fun x : BitVec w => x ^^^ (x >>> s) := by
  intro x y he
  have hself : (x ^^^ y) = (x ^^^ y) >>> s := by
    have hxor : (x ^^^ y) ^^^ ((x ^^^ y) >>> s) = 0#w := by
      rw [BitVec.ushiftRight_xor_distrib]
      have hsum : (x ^^^ (x >>> s)) ^^^ (y ^^^ (y >>> s)) = 0#w := by
        rw [show x ^^^ (x >>> s) = y ^^^ (y >>> s) from he, BitVec.xor_self]
      rw [← hsum]
      ac_rfl
    exact BitVec.xor_eq_zero_iff.mp hxor
  have hnat : (x ^^^ y).toNat = (x ^^^ y).toNat / 2 ^ s := by
    rw [← Nat.shiftRight_eq_div_pow, ← BitVec.toNat_ushiftRight]
    exact congrArg BitVec.toNat hself
  have hzero : (x ^^^ y).toNat = 0 := by
    by_contra hne
    have hlt := Nat.div_lt_self (Nat.pos_of_ne_zero hne) (Nat.one_lt_two_pow hs.ne')
    omega
  exact BitVec.xor_eq_zero_iff.mp (BitVec.eq_of_toNat_eq hzero)

theorem rotateRight_rotateLeft (x : BitVec w) {r : Nat} (hr : r < w) :
    (x.rotateLeft r).rotateRight r = x := by
  apply BitVec.eq_of_getLsbD_eq
  intro i hi
  rw [BitVec.getLsbD_rotateRight, Nat.mod_eq_of_lt hr, BitVec.getLsbD_rotateLeft_of_le hr,
    BitVec.getLsbD_rotateLeft_of_le hr]
  by_cases hlow : i < w - r
  · have hge : ¬ r + i < r := by omega
    have hlt : r + i < w := by omega
    simp [hlow, hge, hlt]
  · have hlt : i - (w - r) < r := by omega
    have he : w - r + (i - (w - r)) = i := by omega
    simp [hlow, hlt, he, hi]

theorem rotateLeft_injective {r : Nat} (hr : r < w) :
    Injective fun x : BitVec w => x.rotateLeft r := by
  intro x y he
  have hx := rotateRight_rotateLeft x hr
  rw [show x.rotateLeft r = y.rotateLeft r from he, rotateRight_rotateLeft y hr] at hx
  exact hx.symm

theorem mul_injective {c d : BitVec w} (h : c * d = 1#w) : Injective fun x : BitVec w => x * c := by
  intro x y he
  have hx : x * c * d = y * c * d := congrArg (· * d) he
  rwa [BitVec.mul_assoc, BitVec.mul_assoc, h, BitVec.mul_one, BitVec.mul_one] at hx

/-- Numbers that share no bit are added by exclusive or. -/
theorem two_pow_mul_xor (a : Nat) {b k : Nat} (hb : b < 2 ^ k) :
    (2 ^ k * a) ^^^ b = 2 ^ k * a + b := by
  apply Nat.eq_of_testBit_eq
  intro i
  rw [Nat.testBit_xor, Nat.testBit_two_pow_mul, Nat.testBit_two_pow_mul_add a hb]
  by_cases hi : i < k
  · simp [hi, not_le.mpr hi]
  · have hpow : 2 ^ k ≤ 2 ^ i := Nat.pow_le_pow_right (by omega) (by omega)
    simp [hi, Nat.testBit_lt_two_pow (hb.trans_le hpow), not_lt.mp hi]

end WordMix
