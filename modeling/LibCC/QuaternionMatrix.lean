import LibCC.Mat4

/-! The rotation matrix of a quaternion and the quaternion of a matrix in cc_mat4f.c, over exact
numbers. Each of the four ways to read a quaternion divides by its largest component, or by one
that is large enough. -/

namespace LibCC

open ExactNumbers

/-- cc_quaternion_t -/
@[ext] structure Quaternion (K : Type) where
  v : Vec3 K
  s : K

variable {K : Type} [Field K]

def quaternionLoad (x y z s : K) : Quaternion K := ⟨⟨x, y, z⟩, s⟩

def Quaternion.neg (q : Quaternion K) : Quaternion K := ⟨⟨-q.v.x, -q.v.y, -q.v.z⟩, -q.s⟩

/-- Only these stand for rotations. -/
def Quaternion.Normalized (q : Quaternion K) : Prop := vec3Dot q.v q.v + q.s * q.s = 1

def mat4fRotateq (self : Mat4 K) (load : Bool) (q : Quaternion K) : Mat4 K :=
  let x2 := q.v.x * q.v.x
  let y2 := q.v.y * q.v.y
  let z2 := q.v.z * q.v.z
  let xy := q.v.x * q.v.y
  let xz := q.v.x * q.v.z
  let yz := q.v.y * q.v.z
  let xw := q.v.x * q.s
  let yw := q.v.y * q.s
  let zw := q.v.z * q.s
  mat4fLoadOrMulm self load
    ⟨1 - 2 * (y2 + z2), 2 * (xy + zw), 2 * (xz - yw), 0,
      2 * (xy - zw), 1 - 2 * (x2 + z2), 2 * (yz + xw), 0,
      2 * (xz + yw), 2 * (yz - xw), 1 - 2 * (x2 + y2), 0,
      0, 0, 0, 1⟩

section Read

variable [LinearOrder K]

/-- What the branch of cc_mat4f_quaternion takes the root of, and what it makes of `s`. -/
def mat4fQuaternionBranch (a : Mat4 K) : K × (K → Quaternion K) :=
  let tr := a.m00 + a.m11 + a.m22
  if 0 < tr then
    (tr + 1, fun s =>
      quaternionLoad ((a.m21 - a.m12) / s) ((a.m02 - a.m20) / s) ((a.m10 - a.m01) / s) (1 / 4 * s))
  else if a.m11 < a.m00 ∧ a.m22 < a.m00 then
    (1 + a.m00 - a.m11 - a.m22, fun s =>
      quaternionLoad (1 / 4 * s) ((a.m01 + a.m10) / s) ((a.m02 + a.m20) / s) ((a.m21 - a.m12) / s))
  else if a.m22 < a.m11 then
    (1 + a.m11 - a.m00 - a.m22, fun s =>
      quaternionLoad ((a.m01 + a.m10) / s) (1 / 4 * s) ((a.m12 + a.m21) / s) ((a.m02 - a.m20) / s))
  else
    (1 + a.m22 - a.m00 - a.m11, fun s =>
      quaternionLoad ((a.m02 + a.m20) / s) ((a.m12 + a.m21) / s) (1 / 4 * s) ((a.m10 - a.m01) / s))

def mat4fQuaternionDivisor (sqrt : K → K) (a : Mat4 K) : K :=
  sqrt (mat4fQuaternionBranch a).1 * 2

def mat4fQuaternion (sqrt : K → K) (a : Mat4 K) : Quaternion K :=
  (mat4fQuaternionBranch a).2 (mat4fQuaternionDivisor sqrt a)

end Read

section Rotation

variable {x y z w : K}

/-- The matrix of a rotation with the length of the quaternion written out. -/
def rotationMatrix (x y z w : K) : Mat4 K :=
  ⟨x * x - y * y - z * z + w * w, 2 * (x * y + z * w), 2 * (x * z - y * w), 0,
    2 * (x * y - z * w), y * y - x * x - z * z + w * w, 2 * (y * z + x * w), 0,
    2 * (x * z + y * w), 2 * (y * z - x * w), z * z - x * x - y * y + w * w, 0,
    0, 0, 0, 1⟩

theorem mat4fRotateq_load (self : Mat4 K) (q : Quaternion K) (hq : q.Normalized) :
    mat4fRotateq self true q = rotationMatrix q.v.x q.v.y q.v.z q.s := by
  unfold Quaternion.Normalized vec3Dot at hq
  unfold mat4fRotateq mat4fLoadOrMulm rotationMatrix
  rw [if_pos rfl]
  congr 1
  · linear_combination -hq
  · linear_combination -hq
  · linear_combination -hq

theorem rotationMatrix_mul_transpose (h : x * x + y * y + z * z + w * w = 1) :
    (rotationMatrix x y z w).toMatrix * (rotationMatrix x y z w).toMatrix.transpose = 1 := by
  apply Matrix.ext
  intro i j
  rw [Matrix.mul_apply, Fin.sum_univ_four]
  fin_cases i <;> fin_cases j <;> simp [rotationMatrix, Mat4.toMatrix]
  all_goals first
    | ring1
    | linear_combination (x * x + y * y + z * z + w * w + 1) * h

theorem rotationMatrix_det (h : x * x + y * y + z * z + w * w = 1) :
    (rotationMatrix x y z w).toMatrix.det = 1 := by
  have hdet : (rotationMatrix x y z w).toMatrix.det = (x * x + y * y + z * z + w * w) ^ 3 := by
    rw [Mat4.det_affine rfl rfl rfl, Matrix.det_fin_three]
    simp [rotationMatrix, Mat4.upper, Mat3.toMatrix]
    ring
  rw [hdet, h, one_pow]

end Rotation

section RoundTrip

variable [LinearOrder K] [IsStrictOrderedRing K] {x y z w : K}

/-- Each branch takes the root of a square and gives the quaternion back, from the opposite root
the opposite one. -/
theorem mat4fQuaternionBranch_rotation (h : x * x + y * y + z * z + w * w = 1) :
    ∃ p, p ≠ 0 ∧
      (mat4fQuaternionBranch (rotationMatrix x y z w)).1 = (2 * p) ^ 2 ∧
      (mat4fQuaternionBranch (rotationMatrix x y z w)).2 (4 * p) = quaternionLoad x y z w ∧
      (mat4fQuaternionBranch (rotationMatrix x y z w)).2 (4 * -p) =
        (quaternionLoad x y z w).neg := by
  have hx := mul_self_nonneg x
  have hy := mul_self_nonneg y
  have hz := mul_self_nonneg z
  unfold mat4fQuaternionBranch
  dsimp only
  split_ifs with htr hxmax hymax
  all_goals simp only [rotationMatrix, quaternionLoad, Quaternion.neg] at htr ⊢
  · have hw : w ≠ 0 := by
      rintro rfl
      linarith
    refine ⟨w, hw, by linear_combination -h, ?_, ?_⟩
    · congr 2 <;> field_simp <;> ring
    · congr 2 <;> field_simp <;> ring
  · have hx0 : x ≠ 0 := by
      rintro rfl
      simp only [rotationMatrix] at hxmax
      linarith
    refine ⟨x, hx0, by linear_combination -h, ?_, ?_⟩
    · congr 2 <;> field_simp <;> ring
    · congr 2 <;> field_simp <;> ring
  · have hy0 : y ≠ 0 := by
      rintro rfl
      simp only [rotationMatrix] at hymax
      linarith
    refine ⟨y, hy0, by linear_combination -h, ?_, ?_⟩
    · congr 2 <;> field_simp <;> ring
    · congr 2 <;> field_simp <;> ring
  · -- Without `z` neither of the others would be the largest, and the trace would be 3.
    have hz0 : z ≠ 0 := by
      rintro rfl
      simp only [rotationMatrix] at hxmax hymax
      have hy0 : y * y = 0 := by linarith
      have hx0 : x * x = 0 := by
        by_contra hne
        have hpos : 0 < x * x := lt_of_le_of_ne hx (Ne.symm hne)
        exact hxmax ⟨by linarith, by linarith⟩
      linarith
    refine ⟨z, hz0, by linear_combination -h, ?_, ?_⟩
    · congr 2 <;> field_simp <;> ring
    · congr 2 <;> field_simp <;> ring

end RoundTrip

/-- With exact roots the quaternion of its matrix is the quaternion or its opposite. -/
theorem mat4fQuaternion_rotateq (q : Quaternion ℝ) (hq : q.Normalized) (self : Mat4 ℝ) :
    let m := mat4fRotateq self true q
    0 < (mat4fQuaternionBranch m).1 ∧ mat4fQuaternionDivisor Real.sqrt m ≠ 0 ∧
      (mat4fQuaternion Real.sqrt m = q ∨ mat4fQuaternion Real.sqrt m = q.neg) ∧
      m.toMatrix * m.toMatrix.transpose = 1 ∧ m.toMatrix.det = 1 := by
  intro m
  have hm : m = rotationMatrix q.v.x q.v.y q.v.z q.s := mat4fRotateq_load self q hq
  obtain ⟨p, hp, harg, hplus, hminus⟩ := mat4fQuaternionBranch_rotation hq
  rw [← hm] at harg hplus hminus
  have hdivisor : mat4fQuaternionDivisor Real.sqrt m = 4 * |p| := by
    rw [mat4fQuaternionDivisor, harg, Real.sqrt_sq_eq_abs, abs_mul, abs_two]
    ring
  have hroundtrip : mat4fQuaternion Real.sqrt m = q ∨ mat4fQuaternion Real.sqrt m = q.neg := by
    rw [mat4fQuaternion, hdivisor]
    rcases abs_choice p with hpos | hneg
    · rw [hpos]
      exact .inl hplus
    · rw [hneg]
      exact .inr hminus
  refine ⟨?_, ?_, hroundtrip, ?_, ?_⟩
  · rw [harg]
    positivity
  · rw [hdivisor]
    positivity
  · rw [hm]
    exact rotationMatrix_mul_transpose hq
  · rw [hm]
    exact rotationMatrix_det hq

/-- Half a turn about a diagonal, where two entries of the diagonal are the same. -/
theorem mat4fQuaternion_rotateq_tie :
    let q : Quaternion ℝ := ⟨⟨2 / 3, 2 / 3, 1 / 3⟩, 0⟩
    let m := mat4fRotateq Mat4.identity true q
    m.m00 = m.m11 ∧
      (mat4fQuaternion Real.sqrt m = q ∨ mat4fQuaternion Real.sqrt m = q.neg) := by
  intro q m
  have hq : q.Normalized := by norm_num [q, Quaternion.Normalized, vec3Dot]
  refine ⟨?_, (mat4fQuaternion_rotateq q hq Mat4.identity).2.2.1⟩
  norm_num [m, q, mat4fRotateq, mat4fLoadOrMulm]

end LibCC
