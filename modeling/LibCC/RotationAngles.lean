import LibCC.Projection
import LibCC.Rotations

/-! The rotations that cc_quaternion.c and cc_mat4f.c load from angles, over
exact numbers. A quaternion from an axis or from Euler angles stands for the
rotation of cc_mat4f_rotate, apart from what the normalization leaves off. -/

namespace LibCC

open DampedNorm ExactNumbers

variable {K : Type} [Field K]

section Model

variable (sqrt sinf cosf : K → K) (pi eps : K)

/-- cc_vec3f_normalize and its copy. -/
def vec3Normalize (self : Vec3 K) : Vec3 K :=
  let mag := vec3Mag sqrt self + eps
  vec3Muls self (1 / mag)

def quaternionLoadaxis (a x y z : K) : Quaternion K :=
  let v := vec3Normalize sqrt eps ⟨x, y, z⟩
  let a2 := a / 2 * (pi / 180)
  let sin_a2 := sinf a2
  let cos_a2 := cosf a2
  ⟨⟨v.x * sin_a2, v.y * sin_a2, v.z * sin_a2⟩, cos_a2⟩

/-- The branch that is compiled. -/
def quaternionLoadeuler (rx ry rz : K) : Quaternion K :=
  let rx2 := rx / 2 * (pi / 180)
  let ry2 := ry / 2 * (pi / 180)
  let rz2 := rz / 2 * (pi / 180)
  let sx := sinf rx2
  let sy := sinf ry2
  let sz := sinf rz2
  let cx := cosf rx2
  let cy := cosf ry2
  let cz := cosf rz2
  quaternionNormalize sqrt eps
    ⟨⟨sx * cy * cz - cx * sy * sz,
      cx * sy * cz + sx * cy * sz,
      cx * cy * sz - sx * sy * cz⟩,
      cx * cy * cz + sx * sy * sz⟩

def mat4fRotate [DecidableEq K] (self : Mat4 K) (load : Bool) (a x y z : K) : Mat4 K :=
  let n := x * x + y * y + z * z
  let v : Vec3 K :=
    if n ≠ 1 then
      let n := 1 / sqrt n
      ⟨x * n, y * n, z * n⟩
    else ⟨x, y, z⟩
  let c := cosf (pi * a / 180)
  let s := sinf (pi * a / 180)
  let p := 1 - c
  let xxp := v.x * v.x * p
  let xyp := v.x * v.y * p
  let xzp := v.x * v.z * p
  let yyp := v.y * v.y * p
  let yzp := v.y * v.z * p
  let zzp := v.z * v.z * p
  let xs := v.x * s
  let ys := v.y * s
  let zs := v.z * s
  mat4fLoadOrMulm self load
    ⟨xxp + c, xyp + zs, xzp - ys, 0,
      xyp - zs, yyp + c, yzp + xs, 0,
      xzp + ys, yzp - xs, zzp + c, 0,
      0, 0, 0, 1⟩

end Model

section Axis

variable {pi ε : ℝ}

theorem vec3_unit {v : Vec3 ℝ} (hv : 0 < vec3Dot v v) :
    vec3Dot (vec3Muls v (1 / vec3Mag Real.sqrt v)) (vec3Muls v (1 / vec3Mag Real.sqrt v)) = 1 := by
  have hsq : vec3Mag Real.sqrt v * vec3Mag Real.sqrt v = vec3Dot v v := Real.mul_self_sqrt hv.le
  have hpos : 0 < vec3Mag Real.sqrt v := Real.sqrt_pos.mpr hv
  unfold vec3Dot at hsq
  unfold vec3Dot vec3Muls
  field_simp
  linear_combination -hsq

/-- A rotation about a unit axis by twice an angle, with the sine and cosine of that angle. -/
def axisQuaternion (n : Vec3 K) (s c : K) : Quaternion K := ⟨⟨n.x * s, n.y * s, n.z * s⟩, c⟩

/-- The quaternion of a turn by `a` degrees about a unit axis. -/
def axisTurn (sinf cosf : K → K) (pi : K) (n : Vec3 K) (a : K) : Quaternion K :=
  axisQuaternion n (sinf (a / 2 * (pi / 180))) (cosf (a / 2 * (pi / 180)))

theorem axisQuaternion_normalized {n : Vec3 K} {s c : K} (hn : vec3Dot n n = 1)
    (hsc : s * s + c * c = 1) : (axisQuaternion n s c).Normalized := by
  unfold vec3Dot at hn
  unfold Quaternion.Normalized axisQuaternion vec3Dot
  linear_combination s * s * hn + hsc

theorem axisTurn_normalized (pi : ℝ) {n : Vec3 ℝ} (hn : vec3Dot n n = 1) (a : ℝ) :
    (axisTurn Real.sin Real.cos pi n a).Normalized := by
  apply axisQuaternion_normalized hn
  rw [← sq, ← sq, Real.sin_sq_add_cos_sq]

theorem mat4fRotate_axis (self : Mat4 ℝ) (load : Bool) (a : ℝ) {v : Vec3 ℝ}
    (hv : v ≠ ⟨0, 0, 0⟩) :
    mat4fRotate Real.sqrt Real.sin Real.cos pi self load a v.x v.y v.z =
      mat4fRotateq self load
        (axisTurn Real.sin Real.cos pi (vec3Muls v (1 / vec3Mag Real.sqrt v)) a) := by
  have hpos : 0 < vec3Dot v v := vec3Dot_self_pos hv
  have hangle : pi * a / 180 = 2 * (a / 2 * (pi / 180)) := by ring
  have haxis : (if v.x * v.x + v.y * v.y + v.z * v.z ≠ 1 then
      (⟨v.x * (1 / Real.sqrt (v.x * v.x + v.y * v.y + v.z * v.z)),
        v.y * (1 / Real.sqrt (v.x * v.x + v.y * v.y + v.z * v.z)),
        v.z * (1 / Real.sqrt (v.x * v.x + v.y * v.y + v.z * v.z))⟩ : Vec3 ℝ)
      else ⟨v.x, v.y, v.z⟩) = vec3Muls v (1 / vec3Mag Real.sqrt v) := by
    unfold vec3Muls vec3Mag
    split_ifs with hn
    · simp only [mul_comm]
    · simp [not_not.mp hn]
  have hunit := vec3_unit hpos
  generalize vec3Muls v (1 / vec3Mag Real.sqrt v) = n at haxis hunit ⊢
  unfold vec3Dot at hunit
  simp only [mat4fRotate, haxis, hangle, Real.cos_two_mul_eq_one_sub, Real.sin_two_mul,
    mat4fRotateq, axisTurn, axisQuaternion]
  apply congrArg (mat4fLoadOrMulm self load)
  apply Mat4.ext
  all_goals first
    | ring1
    | linear_combination 2 * Real.sin (a / 2 * (pi / 180)) ^ 2 * hunit

/-- An axis that is too short leaves the rotation between the identity, itself and its inverse. -/
theorem mat4fRotateq_shortAxis (self : Mat4 K) (h2 : (2 : K) ≠ 0) (n : Vec3 K) (s c ρ : K) :
    (mat4fRotateq self true (axisQuaternion (vec3Muls n ρ) s c)).toMatrix =
      (1 - ρ ^ 2) • 1 +
        ((ρ ^ 2 + ρ) / 2) • (mat4fRotateq self true (axisQuaternion n s c)).toMatrix +
        ((ρ ^ 2 - ρ) / 2) •
          (mat4fRotateq self true (axisQuaternion n s c)).toMatrix.transpose := by
  apply Matrix.ext
  intro i j
  fin_cases i <;> fin_cases j <;>
    simp [mat4fRotateq, mat4fLoadOrMulm, Mat4.toMatrix, axisQuaternion, vec3Muls] <;>
    field_simp <;> ring

/-- cc_quaternion_loadaxis against cc_mat4f_rotate, for every axis and angle. The constant of the
normalization shortens the axis and not the angle. -/
theorem quaternionLoadaxis_rotate (self : Mat4 ℝ) (a : ℝ) {v : Vec3 ℝ}
    (hv : v ≠ ⟨0, 0, 0⟩) :
    let ρ := damp ε (vec3Mag Real.sqrt v)
    let r := mat4fRotate Real.sqrt Real.sin Real.cos pi self true a v.x v.y v.z
    (mat4fRotateq self true
        (quaternionLoadaxis Real.sqrt Real.sin Real.cos pi ε a v.x v.y v.z)).toMatrix =
      (1 - ρ ^ 2) • 1 + ((ρ ^ 2 + ρ) / 2) • r.toMatrix + ((ρ ^ 2 - ρ) / 2) • r.toMatrix.transpose ∧
    r.toMatrix * r.toMatrix.transpose = 1 ∧ r.toMatrix.det = 1 := by
  intro ρ r
  have hpos : 0 < vec3Mag Real.sqrt v := Real.sqrt_pos.mpr (vec3Dot_self_pos hv)
  have hunit := vec3_unit (vec3Dot_self_pos hv)
  have hnorm := axisTurn_normalized pi hunit a
  have hr : r = mat4fRotateq self true
      (axisTurn Real.sin Real.cos pi (vec3Muls v (1 / vec3Mag Real.sqrt v)) a) :=
    mat4fRotate_axis self true a hv
  have hshort : vec3Normalize Real.sqrt ε v =
      vec3Muls (vec3Muls v (1 / vec3Mag Real.sqrt v)) ρ := by
    simp only [vec3Normalize, vec3Muls, ρ, damp]
    apply Vec3.ext <;> field_simp
  have hq : quaternionLoadaxis Real.sqrt Real.sin Real.cos pi ε a v.x v.y v.z =
      axisTurn Real.sin Real.cos pi (vec3Muls (vec3Muls v (1 / vec3Mag Real.sqrt v)) ρ) a := by
    simp only [quaternionLoadaxis, axisTurn, axisQuaternion, ← hshort]
  rw [hq, hr, mat4fRotateq_load self _ hnorm]
  refine ⟨?_, rotationMatrix_mul_transpose hnorm, rotationMatrix_det hnorm⟩
  rw [← mat4fRotateq_load self _ hnorm]
  exact mat4fRotateq_shortAxis self two_ne_zero _ _ _ ρ

/-- A quarter turn about a long axis, which is shortened to 16/17. -/
theorem quaternionLoadaxis_rotate_quarter :
    let r := mat4fRotate Real.sqrt Real.sin Real.cos Real.pi Mat4.identity true 90 0 0 2
    r = ⟨0, 1, 0, 0, -1, 0, 0, 0, 0, 0, 1, 0, 0, 0, 0, 1⟩ ∧
    (mat4fRotateq Mat4.identity true
        (quaternionLoadaxis Real.sqrt Real.sin Real.cos Real.pi (1 / 8) 90 0 0 2)).toMatrix =
      (33 / 289 : ℝ) • 1 + (264 / 289 : ℝ) • r.toMatrix - (8 / 289 : ℝ) • r.toMatrix.transpose := by
  intro r
  have hroot : Real.sqrt (0 * 0 + 0 * 0 + 2 * 2) = 2 := by
    rw [mul_zero, zero_add, zero_add, Real.sqrt_mul_self zero_le_two]
  have hangle : Real.pi * 90 / 180 = Real.pi / 2 := by ring
  constructor
  · simp only [r, mat4fRotate, mat4fLoadOrMulm, hroot, hangle, Real.cos_pi_div_two,
      Real.sin_pi_div_two]
    norm_num
  · have hturn := (@quaternionLoadaxis_rotate Real.pi (1 / 8) Mat4.identity 90 ⟨0, 0, 2⟩
      (by simp)).1
    have hdamp : damp (1 / 8) (vec3Mag Real.sqrt (⟨0, 0, 2⟩ : Vec3 ℝ)) = 16 / 17 := by
      rw [vec3Mag, hroot, damp]
      norm_num
    rw [hdamp] at hturn
    norm_num at hturn
    rw [sub_eq_add_neg]
    exact hturn

theorem mat4fRotate_unit (self : Mat4 ℝ) (load : Bool) (a : ℝ) {n : Vec3 ℝ}
    (hn : vec3Dot n n = 1) :
    mat4fRotate Real.sqrt Real.sin Real.cos pi self load a n.x n.y n.z =
      mat4fRotateq self load (axisTurn Real.sin Real.cos pi n a) := by
  have hne : n ≠ ⟨0, 0, 0⟩ := by
    rintro rfl
    simp [vec3Dot] at hn
  have hmag : vec3Mag Real.sqrt n = 1 := by
    unfold vec3Dot at hn
    rw [vec3Mag, hn, Real.sqrt_one]
  have hself : vec3Muls n (1 / vec3Mag Real.sqrt n) = n := by
    rw [hmag]
    simp [vec3Muls]
  rw [mat4fRotate_axis self load a hne, hself]

theorem mat4fRotateq_mulm (self : Mat4 K) (q : Quaternion K) :
    mat4fRotateq self false q = mat4fMulmCopy self (mat4fRotateq self true q) := rfl

/-- What cc_quaternion_loadeuler normalizes is the product of three turns. -/
theorem quaternionLoadeuler_product (sqrt sinf cosf : K → K) (pi eps rx ry rz : K) :
    quaternionLoadeuler sqrt sinf cosf pi eps rx ry rz =
      quaternionNormalize sqrt eps (quaternionProduct
        (quaternionProduct (axisTurn sinf cosf pi ⟨0, 0, 1⟩ rz)
          (axisTurn sinf cosf pi ⟨0, 1, 0⟩ ry))
        (axisTurn sinf cosf pi ⟨1, 0, 0⟩ rx)) := by
  unfold quaternionLoadeuler
  apply congrArg (quaternionNormalize sqrt eps)
  simp only [quaternionProduct, axisTurn, axisQuaternion]
  apply Quaternion.ext
  · apply Vec3.ext <;> ring
  · ring

/-- cc_quaternion_loadeuler against three calls of cc_mat4f_rotate: first about the third axis,
last about the first. -/
theorem quaternionLoadeuler_rotate (self : Mat4 ℝ) (rx ry rz : ℝ) :
    let k := damp ε 1 ^ 2
    let rotate := mat4fRotate Real.sqrt Real.sin Real.cos pi
    let m := rotate (rotate (rotate self true rz 0 0 1) false ry 0 1 0) false rx 1 0 0
    (mat4fRotateq self true
        (quaternionLoadeuler Real.sqrt Real.sin Real.cos pi ε rx ry rz)).toMatrix =
      (1 - k) • 1 + k • m.toMatrix ∧
    m.toMatrix * m.toMatrix.transpose = 1 ∧ m.toMatrix.det = 1 := by
  intro k rotate m
  have hx : vec3Dot (⟨1, 0, 0⟩ : Vec3 ℝ) ⟨1, 0, 0⟩ = 1 := by simp [vec3Dot]
  have hy : vec3Dot (⟨0, 1, 0⟩ : Vec3 ℝ) ⟨0, 1, 0⟩ = 1 := by simp [vec3Dot]
  have hz : vec3Dot (⟨0, 0, 1⟩ : Vec3 ℝ) ⟨0, 0, 1⟩ = 1 := by simp [vec3Dot]
  have hqx := axisTurn_normalized pi hx rx
  have hqy := axisTurn_normalized pi hy ry
  have hqz := axisTurn_normalized pi hz rz
  have hload := quaternionLoadeuler_product Real.sqrt Real.sin Real.cos pi ε rx ry rz
  have hm : m.toMatrix = (mat4fRotateq self true
      (axisTurn Real.sin Real.cos pi ⟨0, 0, 1⟩ rz)).toMatrix *
        (mat4fRotateq self true (axisTurn Real.sin Real.cos pi ⟨0, 1, 0⟩ ry)).toMatrix *
        (mat4fRotateq self true (axisTurn Real.sin Real.cos pi ⟨1, 0, 0⟩ rx)).toMatrix := by
    simp only [m, rotate]
    rw [mat4fRotate_unit _ false rx hx, mat4fRotate_unit _ false ry hy,
      mat4fRotate_unit self true rz hz, mat4fRotateq_mulm, mat4fRotateq_mulm, Mat4.toMatrix_mulm,
      Mat4.toMatrix_mulm]
    rfl
  rw [← mat4fRotateq_product self hqz hqy, ← mat4fRotateq_product self (hqz.product hqy) hqx] at hm
  have hq := (hqz.product hqy).product hqx
  generalize quaternionProduct (quaternionProduct (axisTurn Real.sin Real.cos pi ⟨0, 0, 1⟩ rz)
    (axisTurn Real.sin Real.cos pi ⟨0, 1, 0⟩ ry)) (axisTurn Real.sin Real.cos pi ⟨1, 0, 0⟩ rx) = q
    at hload hm hq
  have hmag : quaternionMag Real.sqrt q = 1 := by
    have hone := quaternionMag_muls hq zero_le_one
    rwa [quaternionMuls_one] at hone
  rw [hload, quaternionNormalize, hmag, mat4fRotateq_muls, hm, mat4fRotateq_load self q hq]
  refine ⟨?_, rotationMatrix_mul_transpose hq, rotationMatrix_det hq⟩
  rw [← sq]
  rfl

end Axis

end LibCC
