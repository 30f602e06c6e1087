import LibCC.Mat4

/-! The projections of cc_mat4f.c over exact numbers. The direct formula maps the near plane to
depth 0 with the vertical axis turned over, the frustum maps it to depth -1 and keeps the axis. -/

namespace LibCC

namespace ExactNumbers

/-- The literal 180 of the degrees. -/
scoped instance atLeastTwo_degrees : Nat.AtLeastTwo 180 := ⟨by decide⟩

end ExactNumbers

open ExactNumbers

variable {K : Type} [Field K]

section Model

variable (tanf : K → K) (pi : K)

def mat4fPerspective (self : Mat4 K) (load : Bool) (fovy aspect znear zfar : K) : Mat4 K :=
  let f := 1 / tanf (fovy * (pi / 180) / 2)
  let m00 := f / aspect
  let m11 := -f
  let m22 := zfar / (znear - zfar)
  let m23 := znear * zfar / (znear - zfar)
  mat4fLoadOrMulm self load
    ⟨m00, 0, 0, 0,
      0, m11, 0, 0,
      0, 0, m22, -1,
      0, 0, m23, 0⟩

variable [LinearOrder K]

def mat4fFrustum (self : Mat4 K) (load : Bool) (l r b t n f : K) : Mat4 K :=
  if n ≤ 0 ∨ f ≤ 0 ∨ l = r ∨ t = b ∨ n = f then self
  else
    let n2 := 2 * n
    let rml := r - l
    let rpl := r + l
    let tmb := t - b
    let tpb := t + b
    let fmn := f - n
    let fpn := f + n
    mat4fLoadOrMulm self load
      ⟨n2 / rml, 0, 0, 0,
        0, n2 / tmb, 0, 0,
        rpl / rml, tpb / tmb, -fpn / fmn, -1,
        0, 0, -n2 * f / fmn, 0⟩

/-- The matrices of the left and of the right eye. -/
def mat4fPerspectiveStereo (pmL pmR : Mat4 K) (load : Bool)
    (fovy aspect znear zfar convergence eye_separation : K) : Mat4 K × Mat4 K :=
  let tan_fovy2 := tanf (fovy * (pi / 180) / 2)
  let es2 := eye_separation / 2
  let top := znear * tan_fovy2
  let bottom := -top
  let a := aspect * tan_fovy2 * convergence
  let b := a - es2
  let c := a + es2
  let d := znear / convergence
  (mat4fFrustum pmL load (-b * d) (c * d) bottom top znear zfar,
    mat4fFrustum pmR load (-c * d) (b * d) bottom top znear zfar)

end Model

/-- The normalized depth of the points at height `z`. -/
def Mat4.depth (m : Mat4 K) (z : K) : K := (m.m22 * z + m.m23) / (m.m32 * z + m.m33)

/-- The columns of the vertical axis and of the axis of view are zero. -/
structure Mat4.Edgewise (m : Mat4 K) : Prop where
  m01 : m.m01 = 0
  m11 : m.m11 = 0
  m21 : m.m21 = 0
  m31 : m.m31 = 0
  m02 : m.m02 = 0
  m12 : m.m12 = 0
  m22 : m.m22 = 0
  m32 : m.m32 = 0

section Loaded

/-! The two matrices for a tangent `t`. -/

def perspectiveMatrix (t aspect znear zfar : K) : Mat4 K :=
  ⟨1 / (aspect * t), 0, 0, 0,
    0, -1 / t, 0, 0,
    0, 0, -zfar / (zfar - znear), -1,
    0, 0, -(znear * zfar) / (zfar - znear), 0⟩

def stereoMatrix (t aspect znear zfar : K) : Mat4 K :=
  ⟨1 / (aspect * t), 0, 0, 0,
    0, 1 / t, 0, 0,
    0, 0, -(zfar + znear) / (zfar - znear), -1,
    0, 0, -(2 * znear * zfar) / (zfar - znear), 0⟩

theorem mat4fPerspective_eq (tanf : K → K) (pi : K) (self : Mat4 K) (load : Bool)
    (fovy aspect znear zfar : K) :
    mat4fPerspective tanf pi self load fovy aspect znear zfar = mat4fLoadOrMulm self load
      (perspectiveMatrix (tanf (fovy * (pi / 180) / 2)) aspect znear zfar) := by
  unfold mat4fPerspective perspectiveMatrix
  dsimp only
  rw [← neg_sub zfar znear, div_neg, div_neg, neg_div, neg_div, neg_div, div_div, mul_comm aspect]

variable [LinearOrder K] [IsStrictOrderedRing K] {t aspect znear zfar : K}

theorem mat4fFrustum_eq (ht : 0 < t) (ha : 0 < aspect) (hn : 0 < znear) (hf : znear < zfar)
    (self : Mat4 K) (load : Bool) :
    mat4fFrustum self load (-(aspect * t * znear)) (aspect * t * znear) (-(znear * t)) (znear * t)
      znear zfar = mat4fLoadOrMulm self load (stereoMatrix t aspect znear zfar) := by
  have hr : 0 < aspect * t * znear := mul_pos (mul_pos ha ht) hn
  have htop : 0 < znear * t := mul_pos hn ht
  have hdepth : zfar - znear ≠ 0 := (sub_pos.mpr hf).ne'
  have hguard : ¬(znear ≤ 0 ∨ zfar ≤ 0 ∨ -(aspect * t * znear) = aspect * t * znear ∨
      znear * t = -(znear * t) ∨ znear = zfar) := by
    rintro (h | h | h | h | h) <;> linarith
  unfold mat4fFrustum stereoMatrix
  rw [if_neg hguard]
  dsimp only
  congr 2
  · field_simp
    ring
  · field_simp
    ring
  · ring
  · ring
  · ring

/-- Without a separation of the eyes both look through the same frustum. -/
theorem mat4fPerspectiveStereo_eq (tanf : K → K) (pi : K) {fovy convergence : K}
    (ht : 0 < tanf (fovy * (pi / 180) / 2)) (ha : 0 < aspect) (hc : 0 < convergence)
    (hn : 0 < znear) (hf : znear < zfar) (pmL pmR : Mat4 K) (load : Bool) :
    let m := stereoMatrix (tanf (fovy * (pi / 180) / 2)) aspect znear zfar
    mat4fPerspectiveStereo tanf pi pmL pmR load fovy aspect znear zfar convergence 0 =
      (mat4fLoadOrMulm pmL load m, mat4fLoadOrMulm pmR load m) := by
  intro m
  have hcancel (u : K) : u * convergence * (znear / convergence) = u * znear := by
    field_simp
  unfold mat4fPerspectiveStereo
  dsimp only
  rw [zero_div, sub_zero, add_zero, neg_mul, hcancel, mat4fFrustum_eq ht ha hn hf,
    mat4fFrustum_eq ht ha hn hf]

omit [LinearOrder K] [IsStrictOrderedRing K] in
/-- Multiplied onto a matrix the two agree where their columns differ by nothing. -/
theorem mat4fMulmCopy_stereo_iff (ht : t ≠ 0) (htwo : (2 : K) ≠ 0) (hn : znear ≠ 0)
    (hf : zfar - znear ≠ 0) (self : Mat4 K) :
    mat4fMulmCopy self (stereoMatrix t aspect znear zfar) =
      mat4fMulmCopy self (perspectiveMatrix t aspect znear zfar) ↔ self.Edgewise := by
  have hvertical (u : K) : u * (1 / t) = u * (-1 / t) ↔ u = 0 := by
    constructor
    · intro h
      have h2 : 2 * u = 0 := by
        field_simp at h
        linear_combination h
      exact (mul_eq_zero.mp h2).resolve_left htwo
    · rintro rfl
      rw [zero_mul, zero_mul]
  have hdepth (u v : K) :
      u * (-(zfar + znear) / (zfar - znear)) + v = u * (-zfar / (zfar - znear)) + v ↔ u = 0 := by
    constructor
    · intro h
      have h2 : znear * u = 0 := by
        field_simp at h
        linear_combination -h
      exact (mul_eq_zero.mp h2).resolve_left hn
    · rintro rfl
      rw [zero_mul, zero_mul]
  constructor
  · intro h
    have he := Mat4.ext_iff.mp h
    simp only [mat4fMulmCopy, stereoMatrix, perspectiveMatrix, mul_zero, add_zero, zero_add,
      hvertical, hdepth] at he
    exact ⟨he.2.2.2.2.1, he.2.2.2.2.2.1, he.2.2.2.2.2.2.1, he.2.2.2.2.2.2.2.1,
      he.2.2.2.2.2.2.2.2.1, he.2.2.2.2.2.2.2.2.2.1, he.2.2.2.2.2.2.2.2.2.2.1,
      he.2.2.2.2.2.2.2.2.2.2.2.1⟩
  · intro h
    apply Mat4.ext <;>
      simp [mat4fMulmCopy, stereoMatrix, perspectiveMatrix, h.m01, h.m11, h.m21, h.m31, h.m02,
        h.m12, h.m22, h.m32]

/-- Loaded matrices never agree, their vertical axes point to different sides. -/
theorem stereoMatrix_ne (ht : 0 < t) :
    stereoMatrix t aspect znear zfar ≠ perspectiveMatrix t aspect znear zfar := by
  intro h
  have hup : 0 < 1 / t := one_div_pos.mpr ht
  have hdown : 1 / t = -1 / t := congrArg Mat4.m11 h
  rw [neg_div] at hdown
  linarith

theorem mat4fLoadOrMulm_stereo_iff (ht : 0 < t) (hn : 0 < znear) (hf : znear < zfar)
    (self : Mat4 K) (load : Bool) :
    mat4fLoadOrMulm self load (stereoMatrix t aspect znear zfar) =
      mat4fLoadOrMulm self load (perspectiveMatrix t aspect znear zfar) ↔
        load = false ∧ self.Edgewise := by
  cases load with
  | true =>
    constructor
    · intro h
      exact absurd h (stereoMatrix_ne ht)
    · rintro ⟨h, -⟩
      contradiction
  | false =>
    rw [mat4fLoadOrMulm, mat4fLoadOrMulm, if_neg Bool.false_ne_true, if_neg Bool.false_ne_true,
      mat4fMulmCopy_stereo_iff ht.ne' two_ne_zero hn.ne' (sub_pos.mpr hf).ne']
    exact ⟨fun h => ⟨rfl, h⟩, And.right⟩

/-- Without a separation of the eyes the two projections agree only where a matrix they are
multiplied onto hides the difference. -/
theorem perspectiveStereo_agrees_iff (tanf : K → K) (pi : K) {fovy convergence : K}
    (ht : 0 < tanf (fovy * (pi / 180) / 2)) (ha : 0 < aspect) (hc : 0 < convergence)
    (hn : 0 < znear) (hf : znear < zfar) (pmL pmR : Mat4 K) (load : Bool) :
    mat4fPerspectiveStereo tanf pi pmL pmR load fovy aspect znear zfar convergence 0 =
      (mat4fPerspective tanf pi pmL load fovy aspect znear zfar,
        mat4fPerspective tanf pi pmR load fovy aspect znear zfar) ↔
      load = false ∧ pmL.Edgewise ∧ pmR.Edgewise := by
  rw [mat4fPerspectiveStereo_eq tanf pi ht ha hc hn hf, mat4fPerspective_eq, mat4fPerspective_eq,
    Prod.mk.injEq, mat4fLoadOrMulm_stereo_iff ht hn hf, mat4fLoadOrMulm_stereo_iff ht hn hf,
    and_and_and_comm, and_self]

theorem perspectiveStereo_agrees_iff_edgewise :
    let pm : Mat4 ℚ := ⟨1, 2, 3, 4, 0, 0, 0, 0, 0, 0, 0, 0, 5, 6, 7, 8⟩
    mat4fPerspectiveStereo (fun _ => 1) 3 pm pm false 90 1 1 2 1 0 =
      (mat4fPerspective (fun _ => 1) 3 pm false 90 1 1 2,
        mat4fPerspective (fun _ => 1) 3 pm false 90 1 1 2) :=
  (perspectiveStereo_agrees_iff (fun _ => 1) 3 one_pos one_pos one_pos one_pos (by norm_num) _ _
    false).mpr ⟨rfl, ⟨rfl, rfl, rfl, rfl, rfl, rfl, rfl, rfl⟩,
      ⟨rfl, rfl, rfl, rfl, rfl, rfl, rfl, rfl⟩⟩

/-- Half the angle has the tangent 1, the planes are at 1 and 2. -/
theorem perspectiveStereo_disagrees :
    let mono := mat4fPerspective (fun _ => (1 : ℚ)) 3 Mat4.identity true 90 1 1 2
    let stereo := mat4fPerspectiveStereo (fun _ => (1 : ℚ)) 3 Mat4.identity Mat4.identity true
      90 1 1 2 1 0
    mono.m11 = -1 ∧ stereo.1.m11 = 1 ∧
      mono.depth (-1) = 0 ∧ stereo.1.depth (-1) = -1 ∧ stereo ≠ (mono, mono) := by
  intro mono stereo
  have hmono : mono.m11 = -1 := by decide +kernel
  have hstereo : stereo.1.m11 = 1 := by decide +kernel
  refine ⟨hmono, hstereo, by decide +kernel, by decide +kernel, ?_⟩
  intro h
  rw [h, hmono] at hstereo
  norm_num at hstereo

end Loaded

end LibCC
