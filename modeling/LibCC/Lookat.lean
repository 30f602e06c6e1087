import LibCC.RotationAngles

/-! The view matrix of cc_mat4f_lookat over exact numbers. Its rows are at
right angles for every input; how far they fall short of length one is what
the normalizations leave off. -/

namespace LibCC

open DampedNorm ExactNumbers

variable {K : Type} [Field K]

section Model

variable (sqrt : K → K) (eps : K)

/-- cc_vec3f_cross_copy -/
def vec3Cross (a b : Vec3 K) : Vec3 K where
  x := a.y * b.z - b.y * a.z
  y := -(a.x * b.z) + b.x * a.z
  z := a.x * b.y - b.x * a.y

def mat4fTranslate (self : Mat4 K) (load : Bool) (x y z : K) : Mat4 K :=
  mat4fLoadOrMulm self load
    ⟨1, 0, 0, 0,
      0, 1, 0, 0,
      0, 0, 1, 0,
      x, y, z, 1⟩

def mat4fLookat (self : Mat4 K) (load : Bool)
    (eyex eyey eyez centerx centery centerz upx upy upz : K) : Mat4 K :=
  let eye : Vec3 K := ⟨eyex, eyey, eyez⟩
  let center : Vec3 K := ⟨centerx, centery, centerz⟩
  let up : Vec3 K := ⟨upx, upy, upz⟩
  let n := vec3Subv center eye
  let n := vec3Normalize sqrt eps n
  let up := vec3Normalize sqrt eps up
  let u := vec3Cross n up
  let v := vec3Cross u n
  let u := vec3Normalize sqrt eps u
  let v := vec3Normalize sqrt eps v
  let m : Mat4 K :=
    ⟨u.x, v.x, -n.x, 0,
      u.y, v.y, -n.y, 0,
      u.z, v.z, -n.z, 0,
      0, 0, 0, 1⟩
  let m := mat4fTranslate m false (-eye.x) (-eye.y) (-eye.z)
  mat4fLoadOrMulm self load m

end Model

section Cross

variable (a b : Vec3 K) (c : K)

theorem vec3Dot_comm : vec3Dot a b = vec3Dot b a := by
  unfold vec3Dot
  ring

theorem vec3Dot_muls : vec3Dot (vec3Muls a c) b = c * vec3Dot a b := by
  unfold vec3Dot vec3Muls
  ring

theorem vec3Cross_muls_left : vec3Cross (vec3Muls a c) b = vec3Muls (vec3Cross a b) c := by
  unfold vec3Cross vec3Muls
  apply Vec3.ext <;> ring

theorem vec3Cross_muls_right : vec3Cross a (vec3Muls b c) = vec3Muls (vec3Cross a b) c := by
  unfold vec3Cross vec3Muls
  apply Vec3.ext <;> ring

theorem vec3Dot_cross_left : vec3Dot (vec3Cross a b) a = 0 := by
  unfold vec3Dot vec3Cross
  ring

theorem vec3Dot_cross_right : vec3Dot (vec3Cross a b) b = 0 := by
  unfold vec3Dot vec3Cross
  ring

/-- The square of the length of a cross product. -/
theorem vec3Dot_cross_cross : vec3Dot (vec3Cross a b) (vec3Cross a b) =
    vec3Dot a a * vec3Dot b b - vec3Dot a b ^ 2 := by
  unfold vec3Dot vec3Cross
  ring

theorem vec3Dot_cross_assoc (v : Vec3 K) :
    vec3Dot (vec3Cross a b) v = vec3Dot a (vec3Cross b v) := by
  unfold vec3Dot vec3Cross
  ring

variable {a c} in
theorem vec3Muls_ne_zero (hc : c ≠ 0) : vec3Muls a c ≠ ⟨0, 0, 0⟩ ↔ a ≠ ⟨0, 0, 0⟩ := by
  simp only [vec3Muls, Vec3.ext_iff, ne_eq, mul_eq_zero, hc, false_or]

end Cross

section Normalize

variable {ε : ℝ} (a : Vec3 ℝ)

theorem vec3Mag_sq : vec3Mag Real.sqrt a * vec3Mag Real.sqrt a = vec3Dot a a :=
  Real.mul_self_sqrt (vec3Dot_self_nonneg a)

theorem vec3Mag_nonneg : 0 ≤ vec3Mag Real.sqrt a := Real.sqrt_nonneg _

theorem vec3Mag_pos_iff : 0 < vec3Mag Real.sqrt a ↔ a ≠ ⟨0, 0, 0⟩ := by
  constructor
  · rintro hpos rfl
    simp [vec3Mag] at hpos
  · intro hne
    exact Real.sqrt_pos.mpr (vec3Dot_self_pos hne)

theorem vec3Normalize_eq : vec3Normalize Real.sqrt ε a =
    vec3Muls a (1 / (vec3Mag Real.sqrt a + ε)) := rfl

theorem vec3Dot_normalize : vec3Dot (vec3Normalize Real.sqrt ε a) (vec3Normalize Real.sqrt ε a) =
    damp ε (vec3Mag Real.sqrt a) ^ 2 := by
  rw [vec3Normalize_eq, vec3Dot_muls, vec3Dot_comm, vec3Dot_muls, ← vec3Mag_sq, damp]
  ring

theorem vec3Dot_normalize_self : vec3Dot (vec3Normalize Real.sqrt ε a) a =
    damp ε (vec3Mag Real.sqrt a) * vec3Mag Real.sqrt a := by
  rw [vec3Normalize_eq, vec3Dot_muls, ← vec3Mag_sq, damp]
  ring

end Normalize

/-- The rows of a view matrix, and where the eye is. -/
def viewMatrix (u v n eye : Vec3 K) : Mat4 K :=
  ⟨u.x, v.x, -n.x, 0,
    u.y, v.y, -n.y, 0,
    u.z, v.z, -n.z, 0,
    -vec3Dot u eye, -vec3Dot v eye, vec3Dot n eye, 1⟩

section View

variable (u v n eye p : Vec3 K)

theorem viewMatrix_mulVec : (viewMatrix u v n eye).toMatrix.mulVec ![p.x, p.y, p.z, 1] =
    ![vec3Dot u (vec3Subv p eye), vec3Dot v (vec3Subv p eye), -vec3Dot n (vec3Subv p eye), 1] := by
  funext i
  rw [Matrix.mulVec, dotProduct, Fin.sum_univ_four]
  fin_cases i <;> simp [viewMatrix, Mat4.toMatrix, vec3Dot, vec3Subv] <;> ring

theorem viewMatrix_det (c d : K) :
    (viewMatrix (vec3Muls u c) (vec3Muls (vec3Cross u n) d) n eye).toMatrix.det =
      c * d * vec3Dot (vec3Cross u n) (vec3Cross u n) := by
  rw [Mat4.det_affine rfl rfl rfl, Matrix.det_fin_three]
  simp [viewMatrix, Mat4.upper, Mat3.toMatrix, vec3Dot, vec3Cross, vec3Muls]
  ring

variable {u v n}

theorem viewMatrix_rows (huv : vec3Dot u v = 0) (hun : vec3Dot u n = 0) (hvn : vec3Dot v n = 0) :
    (viewMatrix u v n eye).upper.toMatrix * (viewMatrix u v n eye).upper.toMatrix.transpose =
      Matrix.diagonal ![vec3Dot u u, vec3Dot v v, vec3Dot n n] := by
  unfold vec3Dot at *
  apply Matrix.ext
  intro i j
  rw [Matrix.mul_apply, Fin.sum_univ_three]
  fin_cases i <;> fin_cases j <;> simp [viewMatrix, Mat4.upper, Mat3.toMatrix]
  all_goals first
    | linear_combination huv
    | linear_combination -hun
    | linear_combination -hvn

end View

section Lookat

variable {ε : ℝ}

/-- The lengths of the rows of the view matrix. -/
def lookatScale (sqrt : K → K) (eps : K) (d up : Vec3 K) : Fin 3 → K :=
  let n := vec3Normalize sqrt eps d
  let u := vec3Cross n (vec3Normalize sqrt eps up)
  ![vec3Mag sqrt u / (vec3Mag sqrt u + eps),
    vec3Mag sqrt (vec3Cross u n) / (vec3Mag sqrt (vec3Cross u n) + eps),
    vec3Mag sqrt d / (vec3Mag sqrt d + eps)]

theorem mat4fLookat_eq (sqrt : K → K) (eps : K) (self : Mat4 K) (eye center up : Vec3 K) :
    mat4fLookat sqrt eps self true eye.x eye.y eye.z center.x center.y center.z up.x up.y up.z =
      let n := vec3Normalize sqrt eps (vec3Subv center eye)
      let u := vec3Cross n (vec3Normalize sqrt eps up)
      viewMatrix (vec3Normalize sqrt eps u) (vec3Normalize sqrt eps (vec3Cross u n)) n eye := by
  simp only [mat4fLookat, mat4fTranslate, mat4fLoadOrMulm, mat4fMulmCopy, viewMatrix, vec3Dot]
  apply Mat4.ext <;> simp <;> ring

theorem lookatScale_bounds (hε : 0 < ε) (d up : Vec3 ℝ) (i : Fin 3) :
    0 ≤ lookatScale Real.sqrt ε d up i ∧ lookatScale Real.sqrt ε d up i < 1 := by
  have hbound : ∀ a : Vec3 ℝ, 0 ≤ damp ε (vec3Mag Real.sqrt a) ∧ damp ε (vec3Mag Real.sqrt a) < 1 :=
    fun a => ⟨damp_nonneg hε (vec3Mag_nonneg a), damp_lt_one hε (vec3Mag_nonneg a)⟩
  fin_cases i
  · exact hbound _
  · exact hbound _
  · exact hbound _

/-- The view degenerates when the direction of view or the up vector is zero or they are
parallel. -/
theorem lookatScale_pos_iff (hε : 0 < ε) (d up : Vec3 ℝ) :
    (∀ i, 0 < lookatScale Real.sqrt ε d up i) ↔ vec3Cross d up ≠ ⟨0, 0, 0⟩ := by
  have hdamp : ∀ a : Vec3 ℝ, 0 < damp ε (vec3Mag Real.sqrt a) ↔ a ≠ ⟨0, 0, 0⟩ := by
    intro a
    rw [← vec3Mag_pos_iff]
    constructor
    · intro hpos
      by_contra hzero
      have he : vec3Mag Real.sqrt a = 0 := le_antisymm (not_lt.mp hzero) (vec3Mag_nonneg a)
      simp [damp, he] at hpos
    · exact damp_pos hε
  have hne : ∀ a : Vec3 ℝ, 1 / (vec3Mag Real.sqrt a + ε) ≠ 0 := fun a => by
    have := vec3Mag_nonneg a
    positivity
  have hu : vec3Cross (vec3Normalize Real.sqrt ε d) (vec3Normalize Real.sqrt ε up) ≠ ⟨0, 0, 0⟩ ↔
      vec3Cross d up ≠ ⟨0, 0, 0⟩ := by
    rw [vec3Normalize_eq, vec3Normalize_eq, vec3Cross_muls_left, vec3Cross_muls_right,
      vec3Muls_ne_zero (hne d), vec3Muls_ne_zero (hne up)]
  constructor
  · intro hpos
    exact hu.mp ((hdamp _).mp (hpos 0))
  · intro hcross
    have hd : d ≠ ⟨0, 0, 0⟩ := by
      rintro rfl
      simp [vec3Cross] at hcross
    have hn : vec3Normalize Real.sqrt ε d ≠ ⟨0, 0, 0⟩ := (vec3Muls_ne_zero (hne d)).mpr hd
    have hv : vec3Cross (vec3Cross (vec3Normalize Real.sqrt ε d) (vec3Normalize Real.sqrt ε up))
        (vec3Normalize Real.sqrt ε d) ≠ ⟨0, 0, 0⟩ := by
      intro hzero
      have hsq := vec3Dot_cross_cross (vec3Cross (vec3Normalize Real.sqrt ε d)
        (vec3Normalize Real.sqrt ε up)) (vec3Normalize Real.sqrt ε d)
      rw [hzero, vec3Dot_cross_left] at hsq
      have hpos := mul_pos (vec3Dot_self_pos (hu.mpr hcross)) (vec3Dot_self_pos hn)
      simp only [vec3Dot, mul_zero, add_zero] at hsq hpos
      linarith
    intro i
    fin_cases i
    · exact (hdamp _).mpr (hu.mpr hcross)
    · exact (hdamp _).mpr hv
    · exact (hdamp _).mpr hd

/-- cc_mat4f_lookat puts the eye at the origin and the center in front of it on the third axis,
keeps the up vector upright, and has rows at right angles; it is regular exactly when the up
vector is not along the direction of view. -/
theorem mat4fLookat_view (hε : 0 < ε) (self : Mat4 ℝ) (eye center up : Vec3 ℝ) :
    let d := vec3Subv center eye
    let m := mat4fLookat Real.sqrt ε self true eye.x eye.y eye.z center.x center.y center.z
      up.x up.y up.z
    let point (p : Vec3 ℝ) := m.toMatrix.mulVec ![p.x, p.y, p.z, 1]
    let ρ := lookatScale Real.sqrt ε d up
    point eye = ![0, 0, 0, 1] ∧
    point center = ![0, 0, -(ρ 2 * vec3Mag Real.sqrt d), 1] ∧
    point (vec3Addv eye up) 0 = 0 ∧ 0 ≤ point (vec3Addv eye up) 1 ∧
    m.upper.toMatrix * m.upper.toMatrix.transpose = Matrix.diagonal (fun i => ρ i ^ 2) ∧
    m.toMatrix.det = ρ 0 * ρ 1 * ρ 2 ∧ (∀ i, 0 ≤ ρ i ∧ ρ i < 1) ∧
    (m.toMatrix.det ≠ 0 ↔ vec3Cross d up ≠ ⟨0, 0, 0⟩) := by
  intro d m point ρ
  set n := vec3Normalize Real.sqrt ε d with hn
  set w := vec3Normalize Real.sqrt ε up with hw
  set u := vec3Cross n w with hu
  have hm : m = viewMatrix (vec3Normalize Real.sqrt ε u) (vec3Normalize Real.sqrt ε (vec3Cross u n))
      n eye := mat4fLookat_eq Real.sqrt ε self eye center up
  have hκ : ∀ a : Vec3 ℝ, 0 < 1 / (vec3Mag Real.sqrt a + ε) := fun a => by
    have := vec3Mag_nonneg a
    positivity
  have hdot : ∀ a b : Vec3 ℝ, vec3Dot (vec3Normalize Real.sqrt ε a) b =
      1 / (vec3Mag Real.sqrt a + ε) * vec3Dot a b := fun a b => by
    rw [vec3Normalize_eq, vec3Dot_muls]
  have hpoint : ∀ p, point p = ![vec3Dot (vec3Normalize Real.sqrt ε u) (vec3Subv p eye),
      vec3Dot (vec3Normalize Real.sqrt ε (vec3Cross u n)) (vec3Subv p eye),
      -vec3Dot n (vec3Subv p eye), 1] := fun p => by
    simp only [point, hm]
    exact viewMatrix_mulVec _ _ _ _ _
  have hadd : vec3Subv (vec3Addv eye up) eye = up := by simp [vec3Subv, vec3Addv]
  have hud : vec3Dot u d = 0 := by
    rw [hu, hn, vec3Normalize_eq, vec3Cross_muls_left, vec3Dot_muls, vec3Dot_cross_left, mul_zero]
  have hvd : vec3Dot (vec3Cross u n) d = 0 := by
    rw [hn, vec3Normalize_eq, vec3Cross_muls_right, vec3Dot_muls, vec3Dot_cross_right, mul_zero]
  have hup : vec3Dot u up = 0 := by
    rw [hu, hw, vec3Normalize_eq, vec3Cross_muls_right, vec3Dot_muls, vec3Dot_cross_right, mul_zero]
  have hvup : 0 ≤ vec3Dot (vec3Cross u n) up := by
    rw [vec3Dot_cross_assoc, hu, hw, vec3Normalize_eq, vec3Cross_muls_right, vec3Dot_muls]
    exact mul_nonneg (hκ up).le (vec3Dot_self_nonneg _)
  have hrows := viewMatrix_rows (u := vec3Normalize Real.sqrt ε u)
    (v := vec3Normalize Real.sqrt ε (vec3Cross u n)) (n := n) eye
    (by rw [hdot, vec3Dot_comm, hdot, vec3Dot_cross_left, mul_zero, mul_zero])
    (by rw [hdot, hu, vec3Dot_cross_left, mul_zero])
    (by rw [hdot, vec3Dot_cross_right, mul_zero])
  have hscale := lookatScale_bounds hε d up
  have hdet : m.toMatrix.det = ρ 0 * ρ 1 * ρ 2 := by
    have hlen : vec3Dot (vec3Cross u n) (vec3Cross u n) =
        vec3Mag Real.sqrt (vec3Cross u n) * (vec3Mag Real.sqrt u * ρ 2) := by
      have hsq := vec3Mag_sq (vec3Cross u n)
      have hcross : vec3Dot (vec3Cross u n) (vec3Cross u n) =
          (vec3Mag Real.sqrt u * ρ 2) * (vec3Mag Real.sqrt u * ρ 2) := by
        have hnn : vec3Dot n n = ρ 2 ^ 2 := vec3Dot_normalize d
        have hun : vec3Dot u n = 0 := vec3Dot_cross_left n w
        rw [vec3Dot_cross_cross, hnn, hun, ← vec3Mag_sq]
        ring
      have hmag : vec3Mag Real.sqrt (vec3Cross u n) = vec3Mag Real.sqrt u * ρ 2 := by
        rw [hcross] at hsq
        exact (mul_self_inj (vec3Mag_nonneg _)
          (mul_nonneg (vec3Mag_nonneg u) (hscale 2).1)).mp hsq
      rw [hcross, hmag]
    rw [hm, vec3Normalize_eq, vec3Normalize_eq, viewMatrix_det, hlen]
    simp only [ρ, lookatScale, Matrix.cons_val]
    ring
  refine ⟨?_, ?_, ?_, ?_, ?_, hdet, hscale, ?_⟩
  · rw [hpoint]
    simp [vec3Dot, vec3Subv]
  · have hnd : vec3Dot n d = ρ 2 * vec3Mag Real.sqrt d := vec3Dot_normalize_self d
    have hd : vec3Subv center eye = d := rfl
    rw [hpoint, hd, hdot, hdot, hud, hvd, hnd, mul_zero, mul_zero]
  · rw [hpoint, hadd, hdot, hup, mul_zero]
    rfl
  · rw [hpoint, hadd, hdot, hdot]
    exact mul_nonneg (hκ _).le hvup
  · rw [hm, hrows]
    congr 1
    funext i
    fin_cases i
    · exact vec3Dot_normalize u
    · exact vec3Dot_normalize (vec3Cross u n)
    · exact vec3Dot_normalize d
  · rw [hdet, ← lookatScale_pos_iff hε d up]
    constructor
    · intro hne i
      have hnz : ρ i ≠ 0 := by
        intro hzero
        apply hne
        fin_cases i <;> simp_all
      exact lt_of_le_of_ne (hscale i).1 hnz.symm
    · intro hpos
      exact (mul_pos (mul_pos (hpos 0) (hpos 1)) (hpos 2)).ne'

theorem mat4fLookat_view_upright :
    (mat4fLookat Real.sqrt (1 / 8) Mat4.identity true 0 0 0 0 0 (-2) 0 3 0).toMatrix.det ≠ 0 := by
  have hview := mat4fLookat_view (ε := 1 / 8) (by norm_num) Mat4.identity ⟨0, 0, 0⟩ ⟨0, 0, -2⟩
    ⟨0, 3, 0⟩
  exact hview.2.2.2.2.2.2.2.mpr (by simp [vec3Cross, vec3Subv])

end Lookat

end LibCC
