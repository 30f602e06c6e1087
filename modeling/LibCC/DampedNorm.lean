import Mathlib

/-! Dividing by a norm plus a small constant, which is never zero. The norm that
is left falls short of one, and repeated products with such elements do not
drift: the shortfall stays below a bound that does not grow. -/

namespace DampedNorm

variable {K : Type*} [Field K] [LinearOrder K] [IsStrictOrderedRing K] {ε r s : K}

/-- The norm that is left of `r`. -/
def damp (ε r : K) : K := r / (r + ε)

theorem damp_nonneg (hε : 0 < ε) (hr : 0 ≤ r) : 0 ≤ damp ε r :=
  div_nonneg hr (by linarith)

theorem damp_pos (hε : 0 < ε) (hr : 0 < r) : 0 < damp ε r :=
  div_pos hr (by linarith)

theorem damp_lt_one (hε : 0 < ε) (hr : 0 ≤ r) : damp ε r < 1 := by
  rw [damp, div_lt_one (by linarith)]
  linarith

theorem damp_mono (hε : 0 < ε) (hr : 0 ≤ r) (hrs : r ≤ s) : damp ε r ≤ damp ε s := by
  rw [damp, damp, div_le_div_iff₀ (by linarith) (by linarith)]
  nlinarith

theorem one_sub_damp (hε : 0 < ε) (hr : 0 ≤ r) : 1 - damp ε r = ε / (r + ε) := by
  have hne : r + ε ≠ 0 := by linarith
  rw [damp, eq_div_iff hne, sub_mul, div_mul_cancel₀ r hne]
  ring

/-- The norm of a product in which every factor has norm at least `1 - ε` does not fall below
this fixed point. -/
def floor (ε : K) : K := (1 - (ε + ε)) / (1 - ε)

omit [LinearOrder K] [IsStrictOrderedRing K] in
theorem floor_eq (ε : K) : floor ε = (1 - 2 * ε) / (1 - ε) := by
  rw [floor, two_mul]

theorem damp_floor (hε : 0 < ε) (hlt : 2 * ε < 1) : damp ε (floor ε * (1 - ε)) = floor ε := by
  have hne : 1 - ε ≠ 0 := by linarith
  rw [floor_eq, div_mul_cancel₀ _ hne, damp]
  congr 1
  ring

theorem floor_nonneg (hε : 0 < ε) (hlt : 2 * ε < 1) : 0 ≤ floor ε :=
  div_nonneg (by linarith) (by linarith)

theorem floor_le_one (hε : 0 < ε) (hlt : 2 * ε < 1) : floor ε ≤ 1 := by
  rw [floor, div_le_one (by linarith)]
  linarith

/-- One product and one division keep the norm above the fixed point. -/
theorem floor_le_damp (hε : 0 < ε) (hlt : 2 * ε < 1) (hr : floor ε ≤ r) (hs : 1 - ε ≤ s) :
    floor ε ≤ damp ε (r * s) := by
  have hfloor := floor_nonneg hε hlt
  have hmul : floor ε * (1 - ε) ≤ r * s := mul_le_mul hr hs (by linarith) (hfloor.trans hr)
  calc floor ε = damp ε (floor ε * (1 - ε)) := (damp_floor hε hlt).symm
    _ ≤ damp ε (r * s) := damp_mono hε (mul_nonneg hfloor (by linarith)) hmul

end DampedNorm
