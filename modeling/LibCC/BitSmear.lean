import Mathlib

/-! Smearing a number's bits downwards. Each step ORs in a copy shifted by
twice as much as the one before, so that after k steps a bit says whether one
of the 2 ^ k bits from it on was set. Once this reaches over the whole number
only its length is left of it. -/

namespace BitSmear

/-- `x` after the shifts by 1, 2, 4 up to 2 ^ (k - 1). -/
def smear (x : Nat) : Nat → Nat
  | 0 => x
  | k + 1 => smear x k ||| smear x k >>> 2 ^ k

theorem testBit_smear (x k i : Nat) :
    (smear x k).testBit i = true ↔ ∃ j, j < 2 ^ k ∧ x.testBit (i + j) = true := by
  induction k generalizing i with
  | zero => simp [smear]
  | succ k ih =>
    simp only [smear, Nat.testBit_or, Nat.testBit_shiftRight, Bool.or_eq_true, ih]
    have hpow : 2 ^ (k + 1) = 2 ^ k + 2 ^ k := by omega
    constructor
    · rintro (⟨j, hj, hb⟩ | ⟨j, hj, hb⟩)
      · exact ⟨j, by omega, hb⟩
      · have he : i + (2 ^ k + j) = 2 ^ k + i + j := by omega
        exact ⟨2 ^ k + j, by omega, by rwa [he]⟩
    · rintro ⟨j, hj, hb⟩
      by_cases hlow : j < 2 ^ k
      · exact .inl ⟨j, hlow, hb⟩
      · have he : 2 ^ k + i + (j - 2 ^ k) = i + j := by omega
        exact .inr ⟨j - 2 ^ k, by omega, by rwa [he]⟩

theorem testBit_size_pred {x : Nat} (h : 0 < x.size) : x.testBit (x.size - 1) = true := by
  have hge : 2 ^ (x.size - 1) ≤ x := Nat.lt_size.mp (by omega)
  obtain ⟨i, hi, hb⟩ := Nat.exists_ge_and_testBit_of_ge_two_pow hge
  have hlt : i < x.size := Nat.lt_size.mpr (Nat.ge_two_pow_of_testBit hb)
  have he : i = x.size - 1 := by omega
  rwa [he] at hb

/-- All bits up to the highest one are set, when the shifts reach that far. -/
theorem smear_eq {x k : Nat} (h : x < 2 ^ 2 ^ k) : smear x k = 2 ^ x.size - 1 := by
  have hsize : x.size ≤ 2 ^ k := Nat.size_le.mpr h
  apply Nat.eq_of_testBit_eq
  intro i
  rw [Nat.testBit_two_pow_sub_one, Bool.eq_iff_iff, testBit_smear, decide_eq_true_iff]
  constructor
  · rintro ⟨j, _, hb⟩
    have hlt : i + j < x.size := Nat.lt_size.mpr (Nat.ge_two_pow_of_testBit hb)
    omega
  · intro hi
    have he : i + (x.size - 1 - i) = x.size - 1 := by omega
    exact ⟨x.size - 1 - i, by omega, by rw [he]; exact testBit_size_pred (by omega)⟩

theorem size_pred_eq_clog {x : Nat} (h : 1 ≤ x) : (x - 1).size = Nat.clog 2 x := by
  apply eq_of_forall_ge_iff
  intro n
  rw [Nat.size_le, Nat.clog_le_iff_le_pow (by decide)]
  omega

theorem smear_pred_succ {x k : Nat} (hpos : 1 ≤ x) (h : x ≤ 2 ^ 2 ^ k) :
    smear (x - 1) k + 1 = 2 ^ Nat.clog 2 x := by
  have hpow := Nat.two_pow_pos (Nat.clog 2 x)
  rw [smear_eq (by omega), size_pred_eq_clog hpos]
  omega

theorem isLeast_two_pow_clog (x : Nat) :
    IsLeast {p | (∃ n, p = 2 ^ n) ∧ x ≤ p} (2 ^ Nat.clog 2 x) := by
  constructor
  · exact ⟨⟨_, rfl⟩, Nat.le_pow_clog (by decide) x⟩
  · rintro _ ⟨⟨n, rfl⟩, hn⟩
    exact Nat.pow_le_pow_right (by decide) (Nat.clog_le_of_le_pow hn)

/-- The number is a power of two if there is no rounding to be done. -/
theorem eq_two_pow_iff {x n : Nat} : x = 2 ^ n ↔ x = 2 ^ Nat.clog 2 x ∧ Nat.clog 2 x = n := by
  constructor
  · rintro rfl
    rw [Nat.clog_pow 2 n (by decide)]
    exact ⟨rfl, rfl⟩
  · rintro ⟨h, rfl⟩
    exact h

end BitSmear
