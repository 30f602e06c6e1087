import LibCC.DampedNorm
import LibCC.QuaternionMatrix

/-! Products of quaternions in cc_quaternion.c over exact numbers. Each call
divides by the magnitude plus a small constant, so that no result has exactly
the magnitude one that the matrix requires. -/

namespace LibCC

open DampedNorm ExactNumbers

variable {K : Type} [Field K]

section Model

variable (sqrt : K → K) (eps : K)

/-- cc_vec4f_mag on a quaternion. -/
def quaternionMag (self : Quaternion K) : K :=
  sqrt (self.v.x * self.v.x + self.v.y * self.v.y + self.v.z * self.v.z + self.s * self.s)

/-- cc_vec4f_muls on a quaternion. -/
def quaternionMuls (self : Quaternion K) (s : K) : Quaternion K :=
  ⟨⟨self.v.x * s, self.v.y * s, self.v.z * s⟩, self.s * s⟩

/-- cc_quaternion_normalize and its copy; `eps` is FLT_EPSILON. -/
def quaternionNormalize (self : Quaternion K) : Quaternion K :=
  let mag := quaternionMag sqrt self + eps
  quaternionMuls self (1 / mag)

/-- What cc_quaternion_rotateq has in `copy` before it is normalized. -/
def quaternionProduct (self q : Quaternion K) : Quaternion K :=
  let av := self.v
  let qv := q.v
  let as := self.s
  let qs := q.s
  ⟨⟨as * qv.x + av.x * qs + av.y * qv.z - av.z * qv.y,
    as * qv.y + av.y * qs + av.z * qv.x - av.x * qv.z,
    as * qv.z + av.z * qs + av.x * qv.y - av.y * qv.x⟩,
    as * qs - av.x * qv.x - av.y * qv.y - av.z * qv.z⟩

/-- cc_quaternion_rotateq and cc_quaternion_rotateq_copy. -/
def quaternionRotateq (self q : Quaternion K) : Quaternion K :=
  quaternionNormalize sqrt eps (quaternionProduct self q)

def quaternionIdentity : Quaternion K := quaternionLoad 0 0 0 1

/-- The rotation that a quaternion of any magnitude stands for. -/
def Quaternion.unit (q : Quaternion K) : Quaternion K := quaternionMuls q (1 / quaternionMag sqrt q)

end Model

section Algebra

variable {a b : Quaternion K}

theorem quaternionMuls_muls (q : Quaternion K) (c d : K) :
    quaternionMuls (quaternionMuls q c) d = quaternionMuls q (c * d) := by
  apply Quaternion.ext
  · apply Vec3.ext <;> exact mul_assoc _ c d
  · exact mul_assoc q.s c d

theorem quaternionMuls_one (q : Quaternion K) : quaternionMuls q 1 = q := by
  simp [quaternionMuls]

theorem quaternionProduct_muls (a b : Quaternion K) (c d : K) :
    quaternionProduct (quaternionMuls a c) (quaternionMuls b d) =
      quaternionMuls (quaternionProduct a b) (c * d) := by
  unfold quaternionProduct quaternionMuls
  apply Quaternion.ext
  · apply Vec3.ext <;> ring
  · ring

theorem Quaternion.Normalized.product (ha : a.Normalized) (hb : b.Normalized) :
    (quaternionProduct a b).Normalized := by
  unfold Quaternion.Normalized vec3Dot at *
  unfold quaternionProduct
  linear_combination (b.v.x * b.v.x + b.v.y * b.v.y + b.v.z * b.v.z + b.s * b.s) * ha + hb

theorem quaternionIdentity_normalized : (quaternionIdentity : Quaternion K).Normalized := by
  simp [Quaternion.Normalized, quaternionIdentity, quaternionLoad, vec3Dot]

/-- The matrix of a product is the product of the matrices. -/
theorem rotationMatrix_product (a b : Quaternion K) :
    (rotationMatrix (quaternionProduct a b).v.x (quaternionProduct a b).v.y
      (quaternionProduct a b).v.z (quaternionProduct a b).s).toMatrix =
    (rotationMatrix a.v.x a.v.y a.v.z a.s).toMatrix *
      (rotationMatrix b.v.x b.v.y b.v.z b.s).toMatrix := by
  apply Matrix.ext
  intro i j
  rw [Matrix.mul_apply, Fin.sum_univ_four]
  fin_cases i <;> fin_cases j <;> simp [rotationMatrix, Mat4.toMatrix, quaternionProduct] <;> ring

theorem mat4fRotateq_product (self : Mat4 K) (ha : a.Normalized) (hb : b.Normalized) :
    (mat4fRotateq self true (quaternionProduct a b)).toMatrix =
      (mat4fRotateq self true a).toMatrix * (mat4fRotateq self true b).toMatrix := by
  rw [mat4fRotateq_load self _ (ha.product hb), mat4fRotateq_load self _ ha,
    mat4fRotateq_load self _ hb, rotationMatrix_product]

/-- The matrix of a quaternion that is too short lies between the identity and the rotation. -/
theorem mat4fRotateq_muls (self : Mat4 K) (u : Quaternion K) (c : K) :
    (mat4fRotateq self true (quaternionMuls u c)).toMatrix =
      (1 - c * c) • 1 + (c * c) • (mat4fRotateq self true u).toMatrix := by
  apply Matrix.ext
  intro i j
  fin_cases i <;> fin_cases j <;>
    simp [mat4fRotateq, mat4fLoadOrMulm, Mat4.toMatrix, quaternionMuls] <;> ring

theorem mat4fRotateq_identity (self : Mat4 K) :
    (mat4fRotateq self true quaternionIdentity).toMatrix = 1 := by
  apply Matrix.ext
  intro i j
  fin_cases i <;> fin_cases j <;>
    simp [mat4fRotateq, mat4fLoadOrMulm, Mat4.toMatrix, quaternionIdentity, quaternionLoad]

end Algebra

section Magnitude

variable {ε : ℝ} {u q : Quaternion ℝ} {c : ℝ}

theorem quaternionMag_sq (q : Quaternion ℝ) :
    quaternionMag Real.sqrt q * quaternionMag Real.sqrt q = vec3Dot q.v q.v + q.s * q.s := by
  have hnonneg := vec3Dot_self_nonneg q.v
  have hs := mul_self_nonneg q.s
  unfold vec3Dot at hnonneg ⊢
  exact Real.mul_self_sqrt (by linarith)

theorem quaternionMag_nonneg (q : Quaternion ℝ) : 0 ≤ quaternionMag Real.sqrt q :=
  Real.sqrt_nonneg _

theorem quaternionMag_muls (hu : u.Normalized) (hc : 0 ≤ c) :
    quaternionMag Real.sqrt (quaternionMuls u c) = c := by
  unfold Quaternion.Normalized vec3Dot at hu
  have harg : u.v.x * c * (u.v.x * c) + u.v.y * c * (u.v.y * c) + u.v.z * c * (u.v.z * c) +
      u.s * c * (u.s * c) = c * c := by linear_combination c * c * hu
  simp only [quaternionMag, quaternionMuls, harg, Real.sqrt_mul_self hc]

theorem Quaternion.unit_normalized (hq : 0 < quaternionMag Real.sqrt q) :
    (q.unit Real.sqrt).Normalized := by
  have hsq := quaternionMag_sq q
  unfold Quaternion.Normalized
  unfold vec3Dot at hsq ⊢
  simp only [Quaternion.unit, quaternionMuls]
  field_simp
  linear_combination -hsq

theorem Quaternion.muls_unit (hq : 0 < quaternionMag Real.sqrt q) :
    quaternionMuls (q.unit Real.sqrt) (quaternionMag Real.sqrt q) = q := by
  rw [Quaternion.unit, quaternionMuls_muls, one_div_mul_cancel hq.ne', quaternionMuls_one]

/-- One call: the rotations are multiplied, and the magnitudes too before they are damped. -/
theorem quaternionRotateq_muls (hu : u.Normalized) (hc : 0 ≤ c)
    (hq : 0 < quaternionMag Real.sqrt q) :
    quaternionRotateq Real.sqrt ε (quaternionMuls u c) q =
      quaternionMuls (quaternionProduct u (q.unit Real.sqrt))
        (damp ε (c * quaternionMag Real.sqrt q)) := by
  have hw := Quaternion.unit_normalized hq
  have hprod : quaternionProduct (quaternionMuls u c) q =
      quaternionMuls (quaternionProduct u (q.unit Real.sqrt)) (c * quaternionMag Real.sqrt q) := by
    conv_lhs => rw [← Quaternion.muls_unit hq]
    exact quaternionProduct_muls _ _ _ _
  simp only [quaternionRotateq, quaternionNormalize]
  rw [hprod, quaternionMag_muls (hu.product hw) (mul_nonneg hc hq.le), quaternionMuls_muls, damp,
    mul_one_div]

theorem rotationMatrix_entry (hu : u.Normalized) (self : Mat4 ℝ) (i j : Fin 4) :
    |(mat4fRotateq self true u).toMatrix i j| ≤ 1 := by
  rw [mat4fRotateq_load self u hu]
  have hrow := congrFun (congrFun (rotationMatrix_mul_transpose hu) i) i
  rw [Matrix.mul_apply, Matrix.one_apply_eq] at hrow
  simp only [Matrix.transpose_apply] at hrow
  have hsingle := Finset.single_le_sum (fun k _ => mul_self_nonneg
    ((rotationMatrix u.v.x u.v.y u.v.z u.s).toMatrix i k)) (Finset.mem_univ j)
  rw [hrow] at hsingle
  exact abs_le_one_iff_mul_self_le_one.mpr hsingle

end Magnitude

/-- A rotation after any number of calls of cc_quaternion_rotateq. -/
def quaternionRun (sqrt : K → K) (eps : K) (qs : List (Quaternion K)) : Quaternion K :=
  qs.foldl (quaternionRotateq sqrt eps) quaternionIdentity

/-- The product of the rotations that the arguments stand for. -/
def rotationProduct (sqrt : K → K) (self : Mat4 K) (qs : List (Quaternion K)) :
    Matrix (Fin 4) (Fin 4) K :=
  (qs.map fun q => (mat4fRotateq self true (q.unit sqrt)).toMatrix).prod

theorem quaternionRun_muls {ε : ℝ} (hε : 0 < ε) (hlt : 2 * ε < 1) (self : Mat4 ℝ)
    {qs : List (Quaternion ℝ)} (h : ∀ q ∈ qs, 1 - ε ≤ quaternionMag Real.sqrt q) :
    ∃ u c, u.Normalized ∧ floor ε ≤ c ∧ c ≤ 1 ∧
      quaternionRun Real.sqrt ε qs = quaternionMuls u c ∧
      (mat4fRotateq self true u).toMatrix = rotationProduct Real.sqrt self qs := by
  induction qs using List.reverseRecOn with
  | nil =>
    refine ⟨quaternionIdentity, 1, quaternionIdentity_normalized, floor_le_one hε hlt, le_refl 1,
      (quaternionMuls_one _).symm, ?_⟩
    simp [rotationProduct, mat4fRotateq_identity]
  | append_singleton qs q ih =>
    obtain ⟨u, c, hu, hfloor, hc, hrun, hprod⟩ := ih fun q hq => h q (by simp [hq])
    have hmag := h q (by simp)
    have hpos : 0 < quaternionMag Real.sqrt q := by linarith
    have hc0 : 0 ≤ c := (floor_nonneg hε hlt).trans hfloor
    have hw := Quaternion.unit_normalized hpos
    refine ⟨_, _, hu.product hw, floor_le_damp hε hlt hfloor hmag,
      (damp_lt_one hε (mul_nonneg hc0 hpos.le)).le, ?_, ?_⟩
    · rw [quaternionRun, List.foldl_append, List.foldl_cons, List.foldl_nil,
        ← quaternionRotateq_muls hu hc0 hpos, ← hrun, quaternionRun]
    · rw [mat4fRotateq_product self hu hw, hprod]
      simp [rotationProduct]

/-- However many rotations are multiplied, the matrix of the result is as far from their product
as the last division leaves it: the magnitude does not drift. -/
theorem quaternion_run_rotation {ε : ℝ} (hε : 0 < ε) (hlt : 2 * ε < 1) (self : Mat4 ℝ)
    (qs : List (Quaternion ℝ)) (h : ∀ q ∈ qs, 1 - ε ≤ quaternionMag Real.sqrt q) :
    let c := quaternionMag Real.sqrt (quaternionRun Real.sqrt ε qs)
    (1 - 2 * ε) / (1 - ε) ≤ c ∧ c ≤ 1 ∧
    (mat4fRotateq self true (quaternionRun Real.sqrt ε qs)).toMatrix =
      (1 - c * c) • 1 + (c * c) • rotationProduct Real.sqrt self qs ∧
    ∀ i j, |(mat4fRotateq self true (quaternionRun Real.sqrt ε qs)).toMatrix i j -
      rotationProduct Real.sqrt self qs i j| ≤ 4 * ε / (1 - ε) := by
  intro c
  obtain ⟨u, d, hu, hfloor, hd, hrun, hprod⟩ := quaternionRun_muls hε hlt self h
  have hd0 : 0 ≤ d := (floor_nonneg hε hlt).trans hfloor
  have hc : c = d := by
    change quaternionMag Real.sqrt (quaternionRun Real.sqrt ε qs) = d
    rw [hrun, quaternionMag_muls hu hd0]
  have hmatrix : (mat4fRotateq self true (quaternionRun Real.sqrt ε qs)).toMatrix =
      (1 - d * d) • 1 + (d * d) • rotationProduct Real.sqrt self qs := by
    rw [hrun, mat4fRotateq_muls, hprod]
  rw [hc]
  refine ⟨(floor_eq ε).symm.trans_le hfloor, hd, hmatrix, fun i j => ?_⟩
  have hentry := rotationMatrix_entry hu self i j
  rw [hprod] at hentry
  have hone : |(1 : Matrix (Fin 4) (Fin 4) ℝ) i j| ≤ 1 := by
    rw [Matrix.one_apply]
    split_ifs <;> simp
  have hshort : 1 - d ≤ ε / (1 - ε) := by
    have hne : 1 - ε ≠ 0 := by linarith
    have hfix : 1 - floor ε = ε / (1 - ε) := by
      rw [floor_eq]
      field_simp
      ring
    linarith
  have hdiff : (mat4fRotateq self true (quaternionRun Real.sqrt ε qs)).toMatrix i j -
      rotationProduct Real.sqrt self qs i j = (1 - d * d) *
        ((1 : Matrix (Fin 4) (Fin 4) ℝ) i j - rotationProduct Real.sqrt self qs i j) := by
    rw [hmatrix]
    simp only [Matrix.add_apply, Matrix.smul_apply, smul_eq_mul]
    ring
  have hsq : 0 ≤ 1 - d * d := by nlinarith
  have htwo : |(1 : Matrix (Fin 4) (Fin 4) ℝ) i j - rotationProduct Real.sqrt self qs i j| ≤ 2 :=
    (abs_sub _ _).trans (by linarith)
  calc |(mat4fRotateq self true (quaternionRun Real.sqrt ε qs)).toMatrix i j -
        rotationProduct Real.sqrt self qs i j|
      = (1 - d * d) *
          |(1 : Matrix (Fin 4) (Fin 4) ℝ) i j - rotationProduct Real.sqrt self qs i j| := by
        rw [hdiff, abs_mul, abs_of_nonneg hsq]
    _ ≤ (1 - d * d) * 2 := mul_le_mul_of_nonneg_left htwo hsq
    _ ≤ 4 * (ε / (1 - ε)) := by nlinarith
    _ = 4 * ε / (1 - ε) := by ring

/-- Half a turn about the first axis, and then one about the second: half a turn about the third,
but for what the quaternion is short of length one. -/
theorem quaternion_run_rotation_turns :
    let qs : List (Quaternion ℝ) := [⟨⟨1, 0, 0⟩, 0⟩, ⟨⟨0, 1, 0⟩, 0⟩]
    let c := quaternionMag Real.sqrt (quaternionRun Real.sqrt (1 / 8) qs)
    6 / 7 ≤ c ∧ c ≤ 1 ∧
    rotationProduct Real.sqrt Mat4.identity qs = Matrix.diagonal ![-1, -1, 1, 1] ∧
    ∀ i j, |(mat4fRotateq Mat4.identity true (quaternionRun Real.sqrt (1 / 8) qs)).toMatrix i j -
      Matrix.diagonal ![-1, -1, 1, 1] i j| ≤ 4 / 7 := by
  intro qs c
  have hqs : ∀ q ∈ qs, 1 - 1 / 8 ≤ quaternionMag Real.sqrt q := by
    intro q hq
    have hmem : q = ⟨⟨1, 0, 0⟩, 0⟩ ∨ q = ⟨⟨0, 1, 0⟩, 0⟩ := by simpa [qs] using hq
    rcases hmem with rfl | rfl <;> norm_num [quaternionMag]
  obtain ⟨hlow, hhigh, -, hentry⟩ :=
    quaternion_run_rotation (by norm_num) (by norm_num) Mat4.identity qs hqs
  have hproduct : rotationProduct Real.sqrt Mat4.identity qs = Matrix.diagonal ![-1, -1, 1, 1] := by
    simp only [rotationProduct, qs, Quaternion.unit, quaternionMag, List.map_cons, List.map_nil,
      List.prod_cons, List.prod_nil, mul_one, mul_zero, add_zero, zero_add, Real.sqrt_one, div_one,
      quaternionMuls_one]
    apply Matrix.ext
    intro i j
    fin_cases i <;> fin_cases j <;>
      simp [mat4fRotateq, mat4fLoadOrMulm, Mat4.toMatrix, Matrix.mul_apply, Fin.sum_univ_four] <;>
      norm_num
  rw [hproduct] at hentry
  norm_num at hlow hentry
  exact ⟨hlow, hhigh, hproduct, hentry⟩

end LibCC
