import LibCC.DoubleSingle
import LibCC.RoundingRay

/-! The draws of floats in cc_rngUniform.c. The last draws are rounded up to the end of the
range, which is not meant to be part of it. -/

namespace LibCC

open Binary

def ldexp (x : ℚ) (e : ℤ) : ℚ := x * 2 ^ e

/-- `r` is what pcg32_random_r gives. -/
def rngUniformRand1F (r : BitVec 32) : Single := round 24 (ldexp r.toNat (-32))

def rngUniformRand2F (r : BitVec 32) (min max : Single) : Single :=
  let rand : Single := round 24 (ldexp r.toNat (-32))
  rand * (max - min) + min

/-- The draws that stay below `max`: from the sums that are rounded below it back to the products,
the quotients by the width and the draws themselves. -/
def drawsBelow (min max : Single) : Ray :=
  let products := (rayBelow 24 max.val).add (-min.val)
  let rands := (unround 24 products).mul (1 / (max - min).val)
  (unround 24 rands).mul (2 ^ 32)

variable {r : BitVec 32} {min max : Single}

theorem ldexp_nonneg (r : BitVec 32) : 0 ≤ ldexp r.toNat (-32) :=
  mul_nonneg (Nat.cast_nonneg _) (zpow_two_pos _).le

theorem isFloat_zero : IsFloat 24 (0 : ℚ) := ⟨0, 0, by norm_num, by norm_num⟩

theorem rand1F_nonneg (r : BitVec 32) : 0 ≤ (rngUniformRand1F r).val :=
  le_nearestFloat (by norm_num) isFloat_zero (ldexp_nonneg r)

/-- From 1 - 2^-25 on the draws are rounded to 1. -/
theorem rand1F_lt_one_iff (r : BitVec 32) :
    (rngUniformRand1F r).val < 1 ↔ r.toNat < 2 ^ 32 - 128 := by
  have hstep : StepAt 24 (2 ^ 24) := .inl (by norm_num)
  have hcut := nearestFloat_lt_iff_cut (x := ldexp r.toNat (-32)) (e := -24) (by norm_num) hstep
  have hone : ((2 ^ 24 : ℤ) : ℚ) * 2 ^ (-24 : ℤ) = 1 := by norm_num
  rw [hone] at hcut
  show nearestFloat 24 (ldexp r.toNat (-32)) < 1 ↔ _
  rw [hcut]
  have hopen : ¬ (2 ^ 24 : ℤ) % 2 = 1 := by norm_num
  have hbound : (((2 ^ 24 : ℤ) : ℚ) - 1 / 2) * 2 ^ (-24 : ℤ) =
      ((2 ^ 32 - 128 : ℕ) : ℚ) * 2 ^ (-32 : ℤ) := by norm_num
  simp only [Ray.Has, cut, ldexp, hopen, decide_false, Bool.false_eq_true, false_and, or_false]
  rw [hbound, mul_lt_mul_iff_left₀ (zpow_two_pos _), Nat.cast_lt]

theorem width_pos (h : min.val < max.val) : 0 < (max - min).val :=
  (nearestFloat_pos_iff (by norm_num)).mpr (sub_pos.mpr h)

theorem le_rand2F (r : BitVec 32) (h : min.val < max.val) :
    min.val ≤ (rngUniformRand2F r min max).val := by
  apply le_nearestFloat (by norm_num) min.isFloat
  apply le_add_of_nonneg_left
  apply le_nearestFloat (by norm_num) isFloat_zero
  exact mul_nonneg (rand1F_nonneg r) (width_pos h).le

theorem rand2F_lt_iff (r : BitVec 32) (h : min.val < max.val) :
    (rngUniformRand2F r min max).val < max.val ↔ (drawsBelow min max).Has r.toNat := by
  have hwidth := width_pos h
  have hproducts : 0 < ((rayBelow 24 max.val).add (-min.val)).bound := by
    have := lt_rayBelow_bound (by norm_num) max.isFloat min.isFloat h
    exact lt_add_neg_iff_lt.mpr this
  have hrands : 0 < ((unround 24 ((rayBelow 24 max.val).add (-min.val))).mul
      (1 / (max - min).val)).bound :=
    mul_pos (unround_bound_pos (by norm_num) hproducts) (one_div_pos.mpr hwidth)
  let rand : Single := round 24 (ldexp r.toNat (-32))
  calc (rngUniformRand2F r min max).val < max.val
      ↔ (rayBelow 24 max.val).Has ((rand * (max - min)).val + min.val) :=
        nearestFloat_lt_iff (by norm_num) max.isFloat
    _ ↔ ((rayBelow 24 max.val).add (-min.val)).Has (rand * (max - min)).val := by
        rw [← Ray.has_add (c := -min.val), add_neg_cancel_right]
    _ ↔ (unround 24 ((rayBelow 24 max.val).add (-min.val))).Has (rand.val * (max - min).val) :=
        has_nearestFloat (by norm_num) hproducts
    _ ↔ ((unround 24 ((rayBelow 24 max.val).add (-min.val))).mul (1 / (max - min).val)).Has
        rand.val := by
        rw [← Ray.has_mul (one_div_pos.mpr hwidth), mul_one_div, mul_div_cancel_right₀ _ hwidth.ne']
    _ ↔ _ := has_nearestFloat (by norm_num) hrands
    _ ↔ (drawsBelow min max).Has r.toNat := by
        have hscale : ldexp r.toNat (-32) * 2 ^ 32 = r.toNat := by
          norm_num [ldexp, mul_assoc]
        rw [← Ray.has_mul (c := 2 ^ 32) (by norm_num), hscale]
        rfl

theorem rand_in_range_iff (r : BitVec 32) :
    (0 ≤ (rngUniformRand1F r).val ∧ (rngUniformRand1F r).val < 1 ↔ r.toNat < 2 ^ 32 - 128) ∧
      ∀ min max : Single, min.val < max.val →
        (min.val ≤ (rngUniformRand2F r min max).val ∧ (rngUniformRand2F r min max).val < max.val ↔
          (drawsBelow min max).Has r.toNat) := by
  refine ⟨?_, fun min max h => ?_⟩
  · rw [rand1F_lt_one_iff]
    exact and_iff_right (rand1F_nonneg r)
  · rw [rand2F_lt_iff r h]
    exact and_iff_right (le_rand2F r h)

theorem rand_in_range_iff_low : (0 ≤ (rngUniformRand1F 7).val ∧ (rngUniformRand1F 7).val < 1) ∧
    (drawsBelow (.round 24 1) (.round 24 2)).Has 7 := by
  obtain ⟨h1, h2⟩ := rand_in_range_iff 7
  refine ⟨h1.mpr (by decide), (h2 (.round 24 1) (.round 24 2) (by decide +kernel)).mp ?_⟩
  decide +kernel

/-- The last draw gives 1, and between neighbours most of the upper half gives the upper one. -/
theorem rand_out_of_range :
    (rngUniformRand1F (BitVec.ofNat 32 (2 ^ 32 - 1))).val = 1 ∧
      let min : Single := round 24 1
      let max : Single := round 24 (1 + 1 / 2 ^ 23)
      min.val < max.val ∧
        (rngUniformRand2F (BitVec.ofNat 32 (3 * 2 ^ 30)) min max).val = max.val := by
  decide +kernel

end LibCC
