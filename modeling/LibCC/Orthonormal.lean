import LibCC.GramSchmidt
import LibCC.Lookat

/-! The modified Gram-Schmidt method of cc_mat4f_orthonormal over exact
numbers: its input is a triangular matrix times its result. -/

namespace LibCC

open DampedNorm ExactNumbers GramSchmidt

/-- cc_vec4f_t -/
@[ext] structure Vec4 (K : Type) where
  x : K
  y : K
  z : K
  w : K

variable {K : Type} [Field K]

def vec4Dot (a b : Vec4 K) : K := a.x * b.x + a.y * b.y + a.z * b.z + a.w * b.w

def vec4Subv (a b : Vec4 K) : Vec4 K := ⟨a.x - b.x, a.y - b.y, a.z - b.z, a.w - b.w⟩

def vec4Muls (a : Vec4 K) (s : K) : Vec4 K := ⟨s * a.x, s * a.y, s * a.z, s * a.w⟩

def mat4fProjuv (u v : Vec4 K) : Vec4 K :=
  let dotvu := vec4Dot v u
  let dotuu := vec4Dot u u
  vec4Muls u (dotvu / dotuu)

section Model

variable (sqrt : K → K) (eps : K)

def vec4Mag (a : Vec4 K) : K := sqrt (a.x * a.x + a.y * a.y + a.z * a.z + a.w * a.w)

/-- cc_vec4f_normalize and its copy. -/
def vec4Normalize (self : Vec4 K) : Vec4 K :=
  let mag := vec4Mag sqrt self + eps
  vec4Muls self (1 / mag)

def mat4fOrthonormalCopy (self : Mat4 K) : Mat4 K :=
  let v0 : Vec4 K := ⟨self.m00, self.m01, self.m02, self.m03⟩
  let v1 : Vec4 K := ⟨self.m10, self.m11, self.m12, self.m13⟩
  let v2 : Vec4 K := ⟨self.m20, self.m21, self.m22, self.m23⟩
  let v3 : Vec4 K := ⟨self.m30, self.m31, self.m32, self.m33⟩
  let u0 := vec4Normalize sqrt eps v0
  let u1 := vec4Subv v1 (mat4fProjuv u0 v1)
  let u1 := vec4Normalize sqrt eps u1
  let u2 := vec4Subv v2 (mat4fProjuv u1 v2)
  let u2 := vec4Subv u2 (mat4fProjuv u0 u2)
  let u2 := vec4Normalize sqrt eps u2
  let u3 := vec4Subv v3 (mat4fProjuv u2 v3)
  let u3 := vec4Subv u3 (mat4fProjuv u1 u3)
  let u3 := vec4Subv u3 (mat4fProjuv u0 u3)
  let u3 := vec4Normalize sqrt eps u3
  ⟨u0.x, u1.x, u2.x, u3.x,
    u0.y, u1.y, u2.y, u3.y,
    u0.z, u1.z, u2.z, u3.z,
    u0.w, u1.w, u2.w, u3.w⟩

end Model

section Rows

def Vec4.row (a : Vec4 K) : Fin 4 → K := ![a.x, a.y, a.z, a.w]

variable (a b : Vec4 K) (s : K)

theorem vec4Dot_eq : vec4Dot a b = a.row ⬝ᵥ b.row := by
  rw [dotProduct, Fin.sum_univ_four]
  rfl

theorem vec4Muls_row : (vec4Muls a s).row = s • a.row := by
  funext i
  fin_cases i <;> rfl

theorem vec4Subv_row : (vec4Subv a b).row = a.row - b.row := by
  funext i
  fin_cases i <;> rfl

theorem mat4fProjuv_row : (mat4fProjuv a b).row = proj a.row b.row := by
  rw [mat4fProjuv, vec4Muls_row, vec4Dot_eq, vec4Dot_eq, proj]

theorem vec4Normalize_row (sqrt : K → K) (eps : K) :
    (vec4Normalize sqrt eps a).row = (1 / (vec4Mag sqrt a + eps)) • a.row := by
  rw [vec4Normalize, vec4Muls_row]

end Rows

section Orthonormal

variable {ε : ℝ}

/-- The rows `w` that are normalized: what the earlier results leave of the rows of the input. -/
structure Orthonormalizes (ε : ℝ) (v w u : Fin 4 → Fin 4 → ℝ) : Prop where
  norm : ∀ i, u i = (1 / (Real.sqrt (w i ⬝ᵥ w i) + ε)) • w i
  w0 : w 0 = v 0
  w1 : w 1 = reject (v 1) [u 0]
  w2 : w 2 = reject (v 2) [u 1, u 0]
  w3 : w 3 = reject (v 3) [u 2, u 1, u 0]

theorem vec4Normalize_sqrt (a : Vec4 ℝ) : (vec4Normalize Real.sqrt ε a).row =
    (1 / (Real.sqrt (a.row ⬝ᵥ a.row) + ε)) • a.row := by
  rw [vec4Normalize_row, ← vec4Dot_eq]
  rfl

theorem mat4fOrthonormalCopy_rows (self : Mat4 ℝ) : ∃ w, Orthonormalizes ε self.toMatrix w
    (mat4fOrthonormalCopy Real.sqrt ε self).toMatrix := by
  let v1 : Vec4 ℝ := ⟨self.m10, self.m11, self.m12, self.m13⟩
  let v2 : Vec4 ℝ := ⟨self.m20, self.m21, self.m22, self.m23⟩
  let v3 : Vec4 ℝ := ⟨self.m30, self.m31, self.m32, self.m33⟩
  let w0 : Vec4 ℝ := ⟨self.m00, self.m01, self.m02, self.m03⟩
  let u0 := vec4Normalize Real.sqrt ε w0
  let w1 := vec4Subv v1 (mat4fProjuv u0 v1)
  let u1 := vec4Normalize Real.sqrt ε w1
  let x2 := vec4Subv v2 (mat4fProjuv u1 v2)
  let w2 := vec4Subv x2 (mat4fProjuv u0 x2)
  let u2 := vec4Normalize Real.sqrt ε w2
  let x3 := vec4Subv v3 (mat4fProjuv u2 v3)
  let y3 := vec4Subv x3 (mat4fProjuv u1 x3)
  let w3 := vec4Subv y3 (mat4fProjuv u0 y3)
  refine ⟨![w0.row, w1.row, w2.row, w3.row], ?_, rfl, ?_, ?_, ?_⟩
  · intro i
    fin_cases i
    · exact vec4Normalize_sqrt w0
    · exact vec4Normalize_sqrt w1
    · exact vec4Normalize_sqrt w2
    · exact vec4Normalize_sqrt w3
  · change w1.row = reject v1.row [u0.row]
    simp only [w1, vec4Subv_row, mat4fProjuv_row, reject, List.foldl_cons, List.foldl_nil]
  · change w2.row = reject v2.row [u1.row, u0.row]
    simp only [w2, x2, vec4Subv_row, mat4fProjuv_row, reject, List.foldl_cons, List.foldl_nil]
  · change w3.row = reject v3.row [u2.row, u1.row, u0.row]
    simp only [w3, y3, x3, vec4Subv_row, mat4fProjuv_row, reject, List.foldl_cons, List.foldl_nil]

variable {v w u : Matrix (Fin 4) (Fin 4) ℝ}

/-- The input is a triangular matrix times the result. -/
theorem Orthonormalizes.triangular (h : Orthonormalizes ε v w u) (hε : 0 < ε) :
    ∃ t : Matrix (Fin 4) (Fin 4) ℝ, v = t * u ∧ (∀ i j, i < j → t i j = 0) ∧
      ∀ i, t i i = Real.sqrt (w i ⬝ᵥ w i) + ε := by
  have hscale : ∀ i j, (Real.sqrt (w i ⬝ᵥ w i) + ε) * u i j = w i j := by
    intro i j
    have hpos : 0 < Real.sqrt (w i ⬝ᵥ w i) + ε := by positivity
    rw [congrFun (h.norm i) j, Pi.smul_apply, smul_eq_mul, one_div, mul_inv_cancel_left₀ hpos.ne']
  obtain ⟨c10, h1⟩ : ∃ c10 : ℝ, ∀ j, w 1 j = v 1 j - c10 * u 0 j :=
    ⟨_, fun j => congrFun h.w1 j⟩
  obtain ⟨c20, c21, h2⟩ : ∃ c20 c21 : ℝ, ∀ j, w 2 j = v 2 j - c21 * u 1 j - c20 * u 0 j :=
    ⟨_, _, fun j => congrFun h.w2 j⟩
  obtain ⟨c30, c31, c32, h3⟩ : ∃ c30 c31 c32 : ℝ, ∀ j,
      w 3 j = v 3 j - c32 * u 2 j - c31 * u 1 j - c30 * u 0 j :=
    ⟨_, _, _, fun j => congrFun h.w3 j⟩
  refine ⟨!![Real.sqrt (w 0 ⬝ᵥ w 0) + ε, 0, 0, 0;
    c10, Real.sqrt (w 1 ⬝ᵥ w 1) + ε, 0, 0;
    c20, c21, Real.sqrt (w 2 ⬝ᵥ w 2) + ε, 0;
    c30, c31, c32, Real.sqrt (w 3 ⬝ᵥ w 3) + ε], ?_, ?_, ?_⟩
  · apply Matrix.ext
    intro i j
    rw [Matrix.mul_apply, Fin.sum_univ_four]
    fin_cases i
    · have h0 := congrFun h.w0 j
      simp [hscale, h0]
    · simp [hscale, h1]
    · simp [hscale, h2]
      ring
    · simp [hscale, h3]
      ring
  · intro i j hij
    fin_cases i <;> fin_cases j <;> first | rfl | exact absurd hij (by decide)
  · intro i
    fin_cases i <;> rfl

/-- Each result is orthogonal to the results before it. -/
theorem Orthonormalizes.orthogonal (h : Orthonormalizes ε v w u) (hne : ∀ i, u i ⬝ᵥ u i ≠ 0) :
    ∀ i j, j < i → u i ⬝ᵥ u j = 0 := by
  have hnorm : ∀ i j, w i ⬝ᵥ u j = 0 → u i ⬝ᵥ u j = 0 := by
    intro i j hij
    rw [h.norm i, smul_dotProduct, hij, smul_zero]
  have hne0 : ∀ x ∈ [u 0], x ⬝ᵥ x ≠ 0 := List.forall_mem_singleton.mpr (hne 0)
  have hne1 : ∀ x ∈ [u 1, u 0], x ⬝ᵥ x ≠ 0 := List.forall_mem_cons.mpr ⟨hne 1, hne0⟩
  have hne2 : ∀ x ∈ [u 2, u 1, u 0], x ⬝ᵥ x ≠ 0 := List.forall_mem_cons.mpr ⟨hne 2, hne1⟩
  have h10 : u 1 ⬝ᵥ u 0 = 0 := by
    apply hnorm
    rw [h.w1]
    exact reject_dot (by simp) hne0 _ _ (by simp)
  have h2 : ∀ x ∈ [u 1, u 0], w 2 ⬝ᵥ x = 0 := by
    rw [h.w2]
    exact reject_dot (by simpa using h10) hne1 _
  have h20 : u 2 ⬝ᵥ u 0 = 0 := hnorm 2 0 (h2 _ (by simp))
  have h21 : u 2 ⬝ᵥ u 1 = 0 := hnorm 2 1 (h2 _ (by simp))
  have h3 : ∀ x ∈ [u 2, u 1, u 0], w 3 ⬝ᵥ x = 0 := by
    rw [h.w3]
    exact reject_dot (by simpa using ⟨⟨h21, h20⟩, h10⟩) hne2 _
  have h30 : u 3 ⬝ᵥ u 0 = 0 := hnorm 3 0 (h3 _ (by simp))
  have h31 : u 3 ⬝ᵥ u 1 = 0 := hnorm 3 1 (h3 _ (by simp))
  have h32 : u 3 ⬝ᵥ u 2 = 0 := hnorm 3 2 (h3 _ (by simp))
  intro i j hij
  fin_cases i <;> fin_cases j <;> first | assumption | exact absurd hij (by decide)

theorem Orthonormalizes.norm_sq (h : Orthonormalizes ε v w u) (i : Fin 4) :
    u i ⬝ᵥ u i = damp ε (Real.sqrt (w i ⬝ᵥ w i)) ^ 2 := by
  have hsq : Real.sqrt (w i ⬝ᵥ w i) ^ 2 = w i ⬝ᵥ w i :=
    Real.sq_sqrt (dotProduct_self_star_nonneg (w i))
  rw [h.norm i, smul_dotProduct, dotProduct_smul, damp, div_pow, hsq, smul_eq_mul, smul_eq_mul]
  generalize Real.sqrt (w i ⬝ᵥ w i) + ε = s
  ring

theorem row_dot_ne_zero (hdet : u.det ≠ 0) (i : Fin 4) : u i ⬝ᵥ u i ≠ 0 := by
  intro hzero
  apply hdet
  apply Matrix.det_eq_zero_of_row_eq_zero i
  intro j
  rw [dotProduct_self_eq_zero.mp hzero]
  rfl

/-- A matrix that can be inverted is a lower triangular matrix with a positive diagonal times
the result, whose rows are orthogonal to each other and each short of norm one by the constant
over the diagonal. -/
theorem mat4fOrthonormal_rows (hε : 0 < ε) (self : Mat4 ℝ) (hdet : self.toMatrix.det ≠ 0) :
    let u := (mat4fOrthonormalCopy Real.sqrt ε self).toMatrix
    ∃ (t : Matrix (Fin 4) (Fin 4) ℝ) (ρ : Fin 4 → ℝ),
      self.toMatrix = t * u ∧ (∀ i j, i < j → t i j = 0) ∧ (∀ i, ε < t i i) ∧
      u * u.transpose = Matrix.diagonal (fun i => ρ i ^ 2) ∧
      (∀ i, 0 < ρ i ∧ 1 - ρ i = ε / t i i) ∧ 0 < self.toMatrix.det * u.det := by
  intro u
  obtain ⟨w, h⟩ := mat4fOrthonormalCopy_rows (ε := ε) self
  obtain ⟨t, hmul, hlower, hdiag⟩ := h.triangular hε
  have hdett : t.det = ∏ i, t i i := Matrix.det_of_isLowerTriangular t hlower
  have hdetmul : self.toMatrix.det = t.det * u.det := by rw [hmul, Matrix.det_mul]
  have hdetu : u.det ≠ 0 := by
    intro hzero
    rw [hdetmul, hzero, mul_zero] at hdet
    exact hdet rfl
  have hpos : ∀ i, 0 < damp ε (Real.sqrt (w i ⬝ᵥ w i)) := by
    intro i
    apply lt_of_le_of_ne (damp_nonneg hε (Real.sqrt_nonneg _))
    intro hzero
    apply row_dot_ne_zero hdetu i
    rw [h.norm_sq, ← hzero]
    norm_num
  have hw : ∀ i, 0 < Real.sqrt (w i ⬝ᵥ w i) := by
    intro i
    apply lt_of_le_of_ne (Real.sqrt_nonneg _)
    intro hzero
    have := hpos i
    rw [← hzero, damp, zero_div] at this
    exact lt_irrefl _ this
  refine ⟨t, fun i => damp ε (Real.sqrt (w i ⬝ᵥ w i)), hmul, hlower, ?_, ?_, ?_, ?_⟩
  · intro i
    have := hw i
    rw [hdiag]
    linarith
  · apply Matrix.ext
    intro i j
    change u i ⬝ᵥ u j = _
    have horth := h.orthogonal (row_dot_ne_zero hdetu)
    rcases lt_trichotomy i j with hij | rfl | hij
    · rw [Matrix.diagonal_apply_ne _ hij.ne, dotProduct_comm]
      exact horth j i hij
    · rw [Matrix.diagonal_apply_eq]
      exact h.norm_sq i
    · rw [Matrix.diagonal_apply_ne _ hij.ne']
      exact horth i j hij
  · intro i
    rw [hdiag]
    exact ⟨hpos i, one_sub_damp hε (Real.sqrt_nonneg _)⟩
  · have hprod : 0 < t.det := by
      rw [hdett]
      apply Finset.prod_pos
      intro i _
      have := hw i
      rw [hdiag]
      linarith
    rw [hdetmul, mul_assoc]
    exact mul_pos hprod (mul_self_pos.mpr hdetu)

/-- A shear of the rows. -/
theorem mat4fOrthonormal_rows_shear :
    let self : Mat4 ℝ := ⟨2, 1, 0, 0, 0, 2, 1, 0, 0, 0, 2, 1, 0, 0, 0, 2⟩
    let u := (mat4fOrthonormalCopy Real.sqrt 1 self).toMatrix
    self.toMatrix.det = 16 ∧
    ∃ (t : Matrix (Fin 4) (Fin 4) ℝ) (ρ : Fin 4 → ℝ),
      self.toMatrix = t * u ∧ (∀ i j, i < j → t i j = 0) ∧ (∀ i, 1 < t i i) ∧
      u * u.transpose = Matrix.diagonal (fun i => ρ i ^ 2) ∧
      (∀ i, 0 < ρ i ∧ 1 - ρ i = 1 / t i i) ∧ 0 < self.toMatrix.det * u.det := by
  intro self u
  have hdet : self.toMatrix.det = 16 := by
    simp [self, Mat4.toMatrix, Matrix.det_succ_row_zero, Fin.sum_univ_succ]
    norm_num
  exact ⟨hdet, mat4fOrthonormal_rows one_pos self (by rw [hdet]; norm_num)⟩

end Orthonormal

end LibCC
