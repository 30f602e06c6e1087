import LibCC.Misalignment
import LibCC.Orthonormal

/-! cc_quaternion_slerp over exact numbers, where sin and sinf are one function.
Both branches step from the first quaternion towards the nearer of the second
and its opposite, and never give zero. -/

namespace LibCC

open DampedNorm Misalignment

variable {K : Type} [Field K]

section Model

/-- The cast to cc_vec4f_t. -/
def Quaternion.vec4 (q : Quaternion K) : Vec4 K := ⟨q.v.x, q.v.y, q.v.z, q.s⟩

/-- The cast from cc_vec4f_t. -/
def Vec4.quaternion (a : Vec4 K) : Quaternion K := ⟨⟨a.x, a.y, a.z⟩, a.w⟩

def vec4Addv (a b : Vec4 K) : Vec4 K := ⟨a.x + b.x, a.y + b.y, a.z + b.z, a.w + b.w⟩

variable [LinearOrder K] (sqrt acosf sinf cosf : K → K) (eps : K)

def quaternionSlerp (a b : Quaternion K) (t : K) : Quaternion K :=
  let aa := (quaternionNormalize sqrt eps a).vec4
  let bb := (quaternionNormalize sqrt eps b).vec4
  let dot := vec4Dot aa bb
  let (bb, dot) := if dot < 0 then (vec4Muls bb (-1), -dot) else (bb, dot)
  let thresh := 9995 / 10000
  if thresh < dot then
    -- linearly interpolate
    let c := vec4Subv bb aa
    let c := vec4Muls c t
    let c := vec4Addv c aa
    quaternionNormalize sqrt eps c.quaternion
  else
    let theta_0 := acosf dot
    let theta := theta_0 * t
    let s0 := cosf theta - dot * sinf theta / sinf theta_0
    let s1 := sinf theta / sinf theta_0
    let c := vec4Addv (vec4Muls aa s0) (vec4Muls bb s1)
    quaternionNormalize sqrt eps c.quaternion

def quaternionCompare (a b : Quaternion K) : K :=
  let ds := b.s - a.s
  let dx := b.v.x - a.v.x
  let dy := b.v.y - a.v.y
  let dz := b.v.z - a.v.z
  sqrt (ds * ds + dx * dx + dy * dy + dz * dz)

end Model

section Rows

def Quaternion.row (q : Quaternion K) : Fin 4 → K := q.vec4.row

omit [Field K] in
theorem Vec4.quaternion_row (a : Vec4 K) : a.quaternion.row = a.row := rfl

theorem vec4Addv_row (a b : Vec4 K) : (vec4Addv a b).row = a.row + b.row := by
  funext i
  fin_cases i <;> rfl

theorem quaternionMuls_row (q : Quaternion K) (c : K) : (quaternionMuls q c).row = c • q.row := by
  funext i
  fin_cases i <;> exact mul_comm _ c

variable {ε : ℝ} {a b : Quaternion ℝ} {t : ℝ}

theorem quaternionMag_row (q : Quaternion ℝ) :
    quaternionMag Real.sqrt q = Real.sqrt (q.row ⬝ᵥ q.row) := by
  rw [Quaternion.row, ← vec4Dot_eq]
  rfl

theorem quaternionMag_sq_row (q : Quaternion ℝ) :
    quaternionMag Real.sqrt q ^ 2 = q.row ⬝ᵥ q.row := by
  rw [quaternionMag_row]
  exact Real.sq_sqrt (dotProduct_self_star_nonneg q.row)

theorem quaternionMag_pos (ha : a.row ≠ 0) : 0 < quaternionMag Real.sqrt a := by
  rw [quaternionMag_row]
  exact Real.sqrt_pos.mpr (dot_self_pos ha)

theorem quaternionNormalize_row (q : Quaternion ℝ) : (quaternionNormalize Real.sqrt ε q).row =
    (1 / (quaternionMag Real.sqrt q + ε)) • q.row := by
  rw [quaternionNormalize, quaternionMuls_row]

theorem normalize_scale_pos (hε : 0 < ε) (q : Quaternion ℝ) :
    0 < 1 / (quaternionMag Real.sqrt q + ε) := by
  have hnonneg := quaternionMag_nonneg q
  positivity

theorem quaternionNormalize_ne_zero (hε : 0 < ε) (ha : a.row ≠ 0) :
    (quaternionNormalize Real.sqrt ε a).row ≠ 0 := by
  rw [quaternionNormalize_row]
  exact smul_ne_zero (normalize_scale_pos hε a).ne' ha

theorem quaternionNormalize_dot (q : Quaternion ℝ) :
    (quaternionNormalize Real.sqrt ε q).row ⬝ᵥ (quaternionNormalize Real.sqrt ε q).row =
      damp ε (quaternionMag Real.sqrt q) ^ 2 := by
  rw [quaternionNormalize_row, smul_dotProduct, dotProduct_smul, ← quaternionMag_sq_row, damp,
    div_pow, smul_eq_mul, smul_eq_mul]
  generalize quaternionMag Real.sqrt q + ε = s
  ring

theorem quaternionNormalize_misalign (hε : 0 < ε) (w : Fin 4 → ℝ) :
    misalign (quaternionNormalize Real.sqrt ε a).row w = misalign a.row w := by
  rw [quaternionNormalize_row, misalign_smul_left _ _ (normalize_scale_pos hε a).ne']

end Rows

section Weights

variable {θ t : ℝ}

/-- The second weight is at least that of the linear interpolation. -/
theorem le_sin_div (h0 : 0 < θ) (hpi : θ ≤ Real.pi / 2) (ht : 0 ≤ t) (ht1 : t ≤ 1) :
    t ≤ Real.sin (θ * t) / Real.sin θ := by
  have hsin : 0 < Real.sin θ := Real.sin_pos_of_pos_of_lt_pi h0 (by linarith [Real.pi_pos])
  have hmem : θ ∈ Set.Icc 0 Real.pi := ⟨h0.le, by linarith [Real.pi_pos]⟩
  have hzero : (0 : ℝ) ∈ Set.Icc 0 Real.pi := ⟨le_refl 0, Real.pi_pos.le⟩
  have hconcave := strictConcaveOn_sin_Icc.concaveOn.2 hzero hmem (sub_nonneg.mpr ht1) ht
    (sub_add_cancel 1 t)
  simp only [smul_eq_mul, Real.sin_zero, mul_zero, zero_add] at hconcave
  rw [le_div_iff₀ hsin, mul_comm θ t]
  exact hconcave

/-- The first weight is a quotient of two sines in the first quadrant. -/
theorem first_weight (h0 : 0 < θ) (hpi : θ ≤ Real.pi / 2) (ht : 0 ≤ t) (ht1 : t < 1) :
    0 < Real.cos (θ * t) - Real.cos θ * Real.sin (θ * t) / Real.sin θ ∧
      Real.cos (θ * t) - Real.cos θ * Real.sin (θ * t) / Real.sin θ ≤ 1 := by
  have hsin : 0 < Real.sin θ := Real.sin_pos_of_pos_of_lt_pi h0 (by linarith [Real.pi_pos])
  have heq : Real.cos (θ * t) - Real.cos θ * Real.sin (θ * t) / Real.sin θ =
      Real.sin (θ - θ * t) / Real.sin θ := by
    rw [Real.sin_sub]
    field_simp
  have hrest : 0 < θ - θ * t := by nlinarith
  have hle : θ - θ * t ≤ θ := by nlinarith
  rw [heq]
  constructor
  · exact div_pos (Real.sin_pos_of_pos_of_lt_pi hrest (by linarith [Real.pi_pos])) hsin
  · apply div_le_one_of_le₀ _ hsin.le
    exact Real.sin_le_sin_of_le_of_le_pi_div_two (by linarith [Real.pi_pos]) hpi hle

end Weights

section Step

variable {ε : ℝ} {a b : Quaternion ℝ} {t : ℝ}

theorem vec4Muls_one (a : Vec4 ℝ) : vec4Muls a 1 = a := by
  simp [vec4Muls]

/-- The second vector or its opposite, whichever is nearer to the first. -/
theorem nearer_pair (A B : Vec4 ℝ) : ∃ σ : ℝ, (σ = 1 ∨ σ = -1) ∧ 0 ≤ A.row ⬝ᵥ (σ • B.row) ∧
    (if vec4Dot A B < 0 then (vec4Muls B (-1), -vec4Dot A B) else (B, vec4Dot A B)) =
      (vec4Muls B σ, A.row ⬝ᵥ (σ • B.row)) := by
  rw [vec4Dot_eq]
  by_cases hneg : A.row ⬝ᵥ B.row < 0
  · refine ⟨-1, Or.inr rfl, ?_, ?_⟩
    · rw [dotProduct_smul, smul_eq_mul]
      linarith
    · rw [if_pos hneg, dotProduct_smul, smul_eq_mul, neg_one_mul]
  · refine ⟨1, Or.inl rfl, ?_, ?_⟩
    · rw [one_smul]
      exact le_of_not_gt hneg
    · rw [if_neg hneg, one_smul, vec4Muls_one]

/-- What a call normalizes at the end: the first argument and the nearer of the second and its
opposite, with these weights. -/
theorem quaternionSlerp_weights (a b : Quaternion ℝ) (ht : 0 ≤ t) (ht1 : t < 1) :
    let A := (quaternionNormalize Real.sqrt ε a).row
    let B := (quaternionNormalize Real.sqrt ε b).row
    ∃ σ α β : ℝ, ∃ c : Quaternion ℝ, (σ = 1 ∨ σ = -1) ∧ 0 ≤ A ⬝ᵥ (σ • B) ∧
      0 < α ∧ α ≤ 1 ∧ t ≤ β ∧ c.row = α • A + β • (σ • B) ∧
      quaternionSlerp Real.sqrt Real.arccos Real.sin Real.cos ε a b t =
        quaternionNormalize Real.sqrt ε c := by
  intro A B
  obtain ⟨σ, hσ, hnonneg, hpair⟩ := nearer_pair (quaternionNormalize Real.sqrt ε a).vec4
    (quaternionNormalize Real.sqrt ε b).vec4
  have hA : (quaternionNormalize Real.sqrt ε a).vec4.row = A := rfl
  have hB : (quaternionNormalize Real.sqrt ε b).vec4.row = B := rfl
  rw [hA, hB] at hnonneg hpair
  simp only [quaternionSlerp, hpair]
  by_cases hthresh : 9995 / 10000 < A ⬝ᵥ (σ • B)
  · rw [if_pos hthresh]
    refine ⟨σ, 1 - t, t, _, hσ, hnonneg, by linarith, by linarith, le_refl t, ?_, rfl⟩
    rw [Vec4.quaternion_row, vec4Addv_row, vec4Muls_row, vec4Subv_row, vec4Muls_row, hA, hB]
    module
  · rw [if_neg hthresh]
    have hle : A ⬝ᵥ (σ • B) ≤ 9995 / 10000 := le_of_not_gt hthresh
    have hcos : Real.cos (Real.arccos (A ⬝ᵥ (σ • B))) = A ⬝ᵥ (σ • B) :=
      Real.cos_arccos (by linarith) (by linarith)
    have h0 : 0 < Real.arccos (A ⬝ᵥ (σ • B)) := Real.arccos_pos.mpr (by linarith)
    have hpi : Real.arccos (A ⬝ᵥ (σ • B)) ≤ Real.pi / 2 :=
      Real.arccos_le_pi_div_two.mpr hnonneg
    obtain ⟨hpos, hone⟩ := first_weight h0 hpi ht ht1
    rw [hcos] at hpos hone
    refine ⟨σ, _, _, _, hσ, hnonneg, hpos, hone, le_sin_div h0 hpi ht ht1.le, ?_, rfl⟩
    rw [Vec4.quaternion_row, vec4Addv_row, vec4Muls_row, vec4Muls_row, vec4Muls_row, hA, hB]

theorem quaternionSlerp_ne_zero (hε : 0 < ε) (ha : a.row ≠ 0) (ht : 0 ≤ t) (ht1 : t < 1) :
    (quaternionSlerp Real.sqrt Real.arccos Real.sin Real.cos ε a b t).row ≠ 0 := by
  obtain ⟨σ, α, β, c, -, hnonneg, hα, -, hβ, hc, heq⟩ :=
    quaternionSlerp_weights a b ht ht1
  rw [heq]
  apply quaternionNormalize_ne_zero hε
  rw [hc]
  exact step_ne_zero (quaternionNormalize_ne_zero hε ha) hnonneg hα (ht.trans hβ)

/-- One call takes a part off the misalignment that depends on `t` and the length of the second
argument alone. -/
theorem quaternionSlerp_misalign (hε : 0 < ε) (ha : a.row ≠ 0) (hb : b.row ≠ 0) (ht : 0 ≤ t)
    (ht1 : t < 1) :
    misalign (quaternionSlerp Real.sqrt Real.arccos Real.sin Real.cos ε a b t).row b.row ≤
      1 / (1 + (t * damp ε (quaternionMag Real.sqrt b)) ^ 2) * misalign a.row b.row := by
  obtain ⟨σ, α, β, c, hσ, hnonneg, hα, hα1, hβ, hc, heq⟩ :=
    quaternionSlerp_weights a b ht ht1
  have hσ0 : σ ≠ 0 := by rcases hσ with rfl | rfl <;> norm_num
  have hσsq : σ * σ = 1 := by rcases hσ with rfl | rfl <;> norm_num
  have hA := quaternionNormalize_ne_zero hε ha
  have hB : σ • (quaternionNormalize Real.sqrt ε b).row ≠ 0 :=
    smul_ne_zero hσ0 (quaternionNormalize_ne_zero hε hb)
  have hright : ∀ w : Fin 4 → ℝ,
      misalign w (σ • (quaternionNormalize Real.sqrt ε b).row) = misalign w b.row := by
    intro w
    rw [misalign_smul_right _ _ hσ0, misalign_comm, quaternionNormalize_misalign hε,
      misalign_comm]
  have hμ : 0 ≤ damp ε (quaternionMag Real.sqrt b) := damp_nonneg hε (quaternionMag_nonneg b)
  have hlong : (t * damp ε (quaternionMag Real.sqrt b)) ^ 2 *
      (α ^ 2 * (quaternionNormalize Real.sqrt ε a).row ⬝ᵥ (quaternionNormalize Real.sqrt ε a).row) ≤
      β ^ 2 * (σ • (quaternionNormalize Real.sqrt ε b).row) ⬝ᵥ
        (σ • (quaternionNormalize Real.sqrt ε b).row) := by
    have hν0 := damp_nonneg hε (quaternionMag_nonneg a)
    have hν := (damp_lt_one hε (quaternionMag_nonneg a)).le
    have hleft : α ^ 2 * damp ε (quaternionMag Real.sqrt a) ^ 2 ≤ 1 := by
      rw [← mul_pow]
      exact pow_le_one₀ (mul_nonneg hα.le hν0) (mul_le_one₀ hα1 hν0 hν)
    have hb2 : (t * damp ε (quaternionMag Real.sqrt b)) ^ 2 ≤
        (β * damp ε (quaternionMag Real.sqrt b)) ^ 2 :=
      pow_le_pow_left₀ (mul_nonneg ht hμ) (mul_le_mul_of_nonneg_right hβ hμ) 2
    rw [quaternionNormalize_dot, smul_dotProduct, dotProduct_smul, quaternionNormalize_dot,
      smul_smul, hσsq, one_smul]
    calc _ ≤ (t * damp ε (quaternionMag Real.sqrt b)) ^ 2 * 1 := by
          exact mul_le_mul_of_nonneg_left hleft (sq_nonneg _)
      _ ≤ (β * damp ε (quaternionMag Real.sqrt b)) ^ 2 := (mul_one _).trans_le hb2
      _ = _ := mul_pow β _ 2
  have hstep := misalign_step hA hB hnonneg hα (ht.trans hβ) (sq_nonneg _) hlong
  rw [heq, quaternionNormalize_misalign hε, ← hright, hc]
  rw [hright (quaternionNormalize Real.sqrt ε a).row, quaternionNormalize_misalign hε] at hstep
  exact hstep

end Step

end LibCC
