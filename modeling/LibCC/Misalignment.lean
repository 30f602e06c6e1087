import Mathlib

/-! The square of the sine of the angle between two vectors, and how much a
step from one of them towards the other takes off it. -/

namespace Misalignment

variable {ι : Type*} [Fintype ι] {a b : ι → ℝ} {c α β κ : ℝ}

/-- The square of the sine of the angle between `a` and `b`. -/
noncomputable def misalign (a b : ι → ℝ) : ℝ := 1 - (a ⬝ᵥ b) ^ 2 / (a ⬝ᵥ a * b ⬝ᵥ b)

theorem dot_self_pos (ha : a ≠ 0) : 0 < a ⬝ᵥ a :=
  lt_of_le_of_ne (dotProduct_self_star_nonneg a) fun h => ha (dotProduct_self_eq_zero.mp h.symm)

theorem ne_zero_of_dot (ha : 0 < a ⬝ᵥ a) : a ≠ 0 := by
  rintro rfl
  simp at ha

theorem sq_le_dot_self (a : ι → ℝ) (i : ι) : a i ^ 2 ≤ a ⬝ᵥ a := by
  rw [sq]
  exact Finset.single_le_sum (fun j _ => mul_self_nonneg (a j)) (Finset.mem_univ i)

theorem dot_sq_le (a b : ι → ℝ) : (a ⬝ᵥ b) ^ 2 ≤ a ⬝ᵥ a * b ⬝ᵥ b := by
  have h := Finset.sum_mul_sq_le_sq_mul_sq Finset.univ a b
  simpa only [dotProduct, sq] using h

theorem misalign_nonneg (a b : ι → ℝ) : 0 ≤ misalign a b := by
  have h : (a ⬝ᵥ b) ^ 2 / (a ⬝ᵥ a * b ⬝ᵥ b) ≤ 1 :=
    div_le_one_of_le₀ (dot_sq_le a b)
      (mul_nonneg (dotProduct_self_star_nonneg a) (dotProduct_self_star_nonneg b))
  exact sub_nonneg.mpr h

theorem misalign_le_one (a b : ι → ℝ) : misalign a b ≤ 1 := by
  have h : 0 ≤ (a ⬝ᵥ b) ^ 2 / (a ⬝ᵥ a * b ⬝ᵥ b) :=
    div_nonneg (sq_nonneg _)
      (mul_nonneg (dotProduct_self_star_nonneg a) (dotProduct_self_star_nonneg b))
  rw [misalign]
  linarith

theorem misalign_comm (a b : ι → ℝ) : misalign a b = misalign b a := by
  rw [misalign, misalign, dotProduct_comm a b, mul_comm (a ⬝ᵥ a)]

/-- The length of a vector does not matter, and neither does its sign. -/
theorem misalign_smul_left (a b : ι → ℝ) (hc : c ≠ 0) : misalign (c • a) b = misalign a b := by
  have hsq : c ^ 2 ≠ 0 := pow_ne_zero 2 hc
  rw [misalign, misalign, smul_dotProduct, smul_dotProduct, dotProduct_smul]
  simp only [smul_eq_mul]
  rw [mul_pow, ← mul_div_mul_left _ (a ⬝ᵥ a * b ⬝ᵥ b) hsq]
  congr 2
  ring

theorem misalign_smul_right (a b : ι → ℝ) (hc : c ≠ 0) : misalign a (c • b) = misalign a b := by
  rw [misalign_comm, misalign_smul_left b a hc, misalign_comm]

/-- The area that two vectors span changes with the first weight alone. -/
theorem gram_add (a b : ι → ℝ) (α β : ℝ) :
    (α • a + β • b) ⬝ᵥ (α • a + β • b) * b ⬝ᵥ b - ((α • a + β • b) ⬝ᵥ b) ^ 2 =
      α ^ 2 * (a ⬝ᵥ a * b ⬝ᵥ b - (a ⬝ᵥ b) ^ 2) := by
  simp only [add_dotProduct, dotProduct_add, smul_dotProduct, dotProduct_smul, smul_eq_mul,
    dotProduct_comm b a]
  ring

theorem dot_add_self (a b : ι → ℝ) (α β : ℝ) : (α • a + β • b) ⬝ᵥ (α • a + β • b) =
    α ^ 2 * a ⬝ᵥ a + 2 * (α * β) * a ⬝ᵥ b + β ^ 2 * b ⬝ᵥ b := by
  simp only [add_dotProduct, dotProduct_add, smul_dotProduct, dotProduct_smul, smul_eq_mul,
    dotProduct_comm b a]
  ring

/-- A step towards `b` from less than a right angle away, with weights that are not negative. -/
theorem dot_add_self_ge (hab : 0 ≤ a ⬝ᵥ b) (hα : 0 ≤ α) (hβ : 0 ≤ β) :
    α ^ 2 * a ⬝ᵥ a + β ^ 2 * b ⬝ᵥ b ≤ (α • a + β • b) ⬝ᵥ (α • a + β • b) := by
  have hcross : 0 ≤ 2 * (α * β) * a ⬝ᵥ b := by positivity
  rw [dot_add_self]
  linarith

theorem step_ne_zero (ha : a ≠ 0) (hab : 0 ≤ a ⬝ᵥ b) (hα : 0 < α) (hβ : 0 ≤ β) :
    α • a + β • b ≠ 0 := by
  have hge := dot_add_self_ge hab hα.le hβ
  have hpos : 0 < α ^ 2 * a ⬝ᵥ a := mul_pos (pow_pos hα 2) (dot_self_pos ha)
  have hb : 0 ≤ β ^ 2 * b ⬝ᵥ b := mul_nonneg (sq_nonneg β) (dotProduct_self_star_nonneg b)
  exact ne_zero_of_dot (by linarith)

/-- What a step towards `b` leaves of the misalignment, where the part along `b` is long enough
beside the part along `a`. -/
theorem misalign_step (ha : a ≠ 0) (hb : b ≠ 0) (hab : 0 ≤ a ⬝ᵥ b) (hα : 0 < α) (hβ : 0 ≤ β)
    (hκ : 0 ≤ κ) (hlong : κ * (α ^ 2 * a ⬝ᵥ a) ≤ β ^ 2 * b ⬝ᵥ b) :
    misalign (α • a + β • b) b ≤ 1 / (1 + κ) * misalign a b := by
  have hge := dot_add_self_ge hab hα.le hβ
  have hA : 0 < α ^ 2 * a ⬝ᵥ a := mul_pos (pow_pos hα 2) (dot_self_pos ha)
  have hB := dot_self_pos hb
  have hC : 0 < (α • a + β • b) ⬝ᵥ (α • a + β • b) := dot_self_pos (step_ne_zero ha hab hα hβ)
  have hgram := gram_add a b α β
  have hleft : misalign (α • a + β • b) b =
      α ^ 2 * a ⬝ᵥ a / ((α • a + β • b) ⬝ᵥ (α • a + β • b)) * misalign a b := by
    have ha' := dot_self_pos ha
    rw [misalign, misalign]
    generalize (α • a + β • b) ⬝ᵥ (α • a + β • b) = C at hC hgram ⊢
    field_simp
    linear_combination hgram
  have hratio : α ^ 2 * a ⬝ᵥ a / ((α • a + β • b) ⬝ᵥ (α • a + β • b)) ≤ 1 / (1 + κ) := by
    rw [div_le_div_iff₀ hC (by linarith)]
    linarith
  rw [hleft]
  exact mul_le_mul_of_nonneg_right hratio (misalign_nonneg a b)

end Misalignment
