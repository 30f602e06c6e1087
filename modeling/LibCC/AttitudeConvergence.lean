import LibCC.AttitudeFilter

/-! With readings that do not change, the attitude of cc_orientation.c tends to
the one they stand for, however the calls of the two sensors are mixed. -/

namespace LibCC

open DampedNorm ExactNumbers Misalignment

section Distance

variable {K : Type} [Field K]

def quaternionInverse (self : Quaternion K) : Quaternion K :=
  quaternionLoad (-self.v.x) (-self.v.y) (-self.v.z) self.s

variable {u w : Quaternion K}

theorem quaternionInverse_normalized (h : w.Normalized) : (quaternionInverse w).Normalized := by
  unfold Quaternion.Normalized vec3Dot at *
  simp only [quaternionInverse, quaternionLoad]
  linear_combination h

theorem quaternionProduct_inverse (h : w.Normalized) :
    quaternionProduct (quaternionProduct u (quaternionInverse w)) w = u := by
  unfold Quaternion.Normalized vec3Dot at h
  simp only [quaternionProduct, quaternionInverse, quaternionLoad]
  apply Quaternion.ext
  · apply Vec3.ext
    · linear_combination u.v.x * h
    · linear_combination u.v.y * h
    · linear_combination u.v.z * h
  · linear_combination u.s * h

/-- The scalar part of the quotient is the cosine of the angle between the two. -/
theorem quaternionProduct_inverse_s :
    (quaternionProduct u (quaternionInverse w)).s = u.row ⬝ᵥ w.row := by
  rw [Quaternion.row, Quaternion.row, ← vec4Dot_eq]
  simp only [quaternionProduct, quaternionInverse, quaternionLoad, vec4Dot, Quaternion.vec4]
  ring

theorem Quaternion.Normalized.dot (h : w.Normalized) : w.row ⬝ᵥ w.row = 1 := by
  unfold Quaternion.Normalized vec3Dot at h
  rw [Quaternion.row, ← vec4Dot_eq, vec4Dot, Quaternion.vec4]
  linear_combination h

end Distance

section Entries

variable {p u w : Quaternion ℝ}

/-- The diagonal of a rotation is at least the cosine of its angle. -/
theorem rotationMatrix_diagonal (hp : p.Normalized) (i : Fin 4) :
    2 * p.s ^ 2 - 1 ≤ (rotationMatrix p.v.x p.v.y p.v.z p.s).toMatrix i i := by
  have hx := mul_self_nonneg p.v.x
  have hy := mul_self_nonneg p.v.y
  have hz := mul_self_nonneg p.v.z
  unfold Quaternion.Normalized vec3Dot at hp
  fin_cases i <;> simp only [rotationMatrix, Mat4.toMatrix, Fin.mk_zero, Fin.mk_one,
    Fin.reduceFinMk, Matrix.of_apply, Matrix.cons_val] <;> nlinarith

/-- How far a row of a rotation is from that of the identity. -/
theorem rotation_row_diff (hp : p.Normalized) (self : Mat4 ℝ) (i : Fin 4) :
    ((mat4fRotateq self true p).toMatrix - 1) i ⬝ᵥ ((mat4fRotateq self true p).toMatrix - 1) i ≤
      4 * (1 - p.s ^ 2) := by
  rw [mat4fRotateq_load self p hp]
  have horth := rotationMatrix_mul_transpose hp
  have hdiagonal := rotationMatrix_diagonal hp i
  generalize (rotationMatrix p.v.x p.v.y p.v.z p.s).toMatrix = M at horth hdiagonal ⊢
  have hsq : (M - 1) * (M - 1).transpose = 1 - M - M.transpose + 1 := by
    rw [Matrix.transpose_sub, Matrix.transpose_one, sub_mul, mul_sub, horth]
    simp only [mul_one, one_mul]
    abel
  have hii := congrFun (congrFun hsq i) i
  simp only [Matrix.add_apply, Matrix.sub_apply, Matrix.transpose_apply, Matrix.one_apply_eq] at hii
  have hdot : (M - 1) i ⬝ᵥ (M - 1) i = 1 - M i i - M i i + 1 := hii
  linarith

/-- Two rotations are as near in every entry as their quaternions are aligned. -/
theorem rotation_entry_diff (hu : u.Normalized) (hw : w.Normalized) (self : Mat4 ℝ) (i j : Fin 4) :
    ((mat4fRotateq self true u).toMatrix i j - (mat4fRotateq self true w).toMatrix i j) ^ 2 ≤
      4 * misalign u.row w.row := by
  let p := quaternionProduct u (quaternionInverse w)
  have hp : p.Normalized := hu.product (quaternionInverse_normalized hw)
  have hmul : (mat4fRotateq self true u).toMatrix =
      (mat4fRotateq self true p).toMatrix * (mat4fRotateq self true w).toMatrix := by
    rw [← mat4fRotateq_product self hp hw, quaternionProduct_inverse hw]
  have hdiff : (mat4fRotateq self true u).toMatrix i j - (mat4fRotateq self true w).toMatrix i j =
      ((mat4fRotateq self true p).toMatrix - 1) i ⬝ᵥ
        (mat4fRotateq self true w).toMatrix.transpose j := by
    have hentry := congrFun (congrFun (Matrix.sub_mul (mat4fRotateq self true p).toMatrix 1
      (mat4fRotateq self true w).toMatrix) i) j
    rw [← hmul, Matrix.one_mul] at hentry
    exact hentry.symm
  have hcolumn : (mat4fRotateq self true w).toMatrix.transpose j ⬝ᵥ
      (mat4fRotateq self true w).toMatrix.transpose j = 1 := by
    rw [mat4fRotateq_load self w hw]
    have horth := mul_eq_one_comm.mp (rotationMatrix_mul_transpose hw)
    have hjj := congrFun (congrFun horth j) j
    rw [Matrix.one_apply_eq] at hjj
    exact hjj
  have hmisalign : misalign u.row w.row = 1 - p.s ^ 2 := by
    rw [misalign, hu.dot, hw.dot, mul_one, div_one, ← quaternionProduct_inverse_s]
  have hsq := dot_sq_le (((mat4fRotateq self true p).toMatrix - 1) i)
    ((mat4fRotateq self true w).toMatrix.transpose j)
  rw [hcolumn, mul_one] at hsq
  rw [hdiff, hmisalign]
  exact hsq.trans (rotation_row_diff hp self i)

theorem rotation_unit_diff (hu : u.row ≠ 0) (hw : w.row ≠ 0) (self : Mat4 ℝ) (i j : Fin 4) :
    ((mat4fRotateq self true (u.unit Real.sqrt)).toMatrix i j -
      (mat4fRotateq self true (w.unit Real.sqrt)).toMatrix i j) ^ 2 ≤
      4 * misalign u.row w.row := by
  have hupos := quaternionMag_pos hu
  have hwpos := quaternionMag_pos hw
  have hunit := rotation_entry_diff (Quaternion.unit_normalized hupos)
    (Quaternion.unit_normalized hwpos) self i j
  rw [Quaternion.unit, Quaternion.unit, quaternionMuls_row, quaternionMuls_row,
    misalign_smul_left _ _ (one_div_pos.mpr hupos).ne',
    misalign_smul_right _ _ (one_div_pos.mpr hwpos).ne'] at hunit
  exact hunit

end Entries

section Steady

variable {K : Type} [Field K] [LinearOrder K]

/-- The call reports once more what the sensor has reported last. -/
def Orientation.Repeats (o : Orientation K) : OrientationCall K → Prop
  | .accelerometer ts ax ay az rotation =>
    ts ≠ 0 ∧ (⟨ax, ay, az⟩ : Vec3 K) = ⟨o.aAx, o.aAy, o.aAz⟩ ∧ rotation = o.aRotation
  | .magnetometer ts mx my mz gfx gfy gfz =>
    ts ≠ 0 ∧ (⟨mx, my, mz⟩ : Vec3 K) = ⟨o.mMx, o.mMy, o.mMz⟩ ∧
      (⟨gfx, gfy, gfz⟩ : Vec3 K) = ⟨o.mGfx, o.mGfy, o.mGfz⟩
  | .north _ | .reset | .gyroscope .. => False

/-- What the last readings of both sensors stand for. -/
def Orientation.target (lib : MathLibrary K) (o : Orientation K) : Quaternion K :=
  orientationTarget lib o.mNorth ⟨o.aAx, o.aAy, o.aAz⟩ ⟨o.mMx, o.mMy, o.mMz⟩
    ⟨o.mGfx, o.mGfy, o.mGfz⟩

/-- Such a call changes but a timestamp and the attitude. -/
theorem orientationStep_repeats (lib : MathLibrary K) {o : Orientation K} (ha : o.aTs ≠ 0)
    (hm : o.mTs ≠ 0) {c : OrientationCall K} (hc : o.Repeats c) :
    ∃ s t, s ≠ 0 ∧ t ≠ 0 ∧ orientationStep lib o c =
      { o with aTs := s, mTs := t, Q := orientationApproach lib o.Q (o.target lib) } := by
  cases c with
  | north value => exact absurd hc id
  | reset => exact absurd hc id
  | gyroscope ts ax ay az => exact absurd hc id
  | accelerometer ts ax ay az rotation =>
    obtain ⟨hts, hreading, hrotation⟩ := hc
    obtain ⟨rfl, rfl, rfl⟩ := Vec3.mk.inj hreading
    refine ⟨ts, o.mTs, hts, hm, ?_⟩
    have hload : orientationStep lib o (.accelerometer ts o.aAx o.aAy o.aAz rotation) =
        orientationUpdate lib { o with aTs := ts } true := by
      simp [orientationStep, orientationAccelerometer, hrotation, ha]
    rw [hload, orientationUpdate_next lib (by simp [hts, hm])]
    rfl
  | magnetometer ts mx my mz gfx gfy gfz =>
    obtain ⟨hts, hreading, hfield⟩ := hc
    obtain ⟨rfl, rfl, rfl⟩ := Vec3.mk.inj hreading
    obtain ⟨rfl, rfl, rfl⟩ := Vec3.mk.inj hfield
    refine ⟨o.aTs, ts, ha, hts, ?_⟩
    have hload : orientationStep lib o (.magnetometer ts o.mMx o.mMy o.mMz o.mGfx o.mGfy o.mGfz) =
        orientationUpdate lib { o with mTs := ts } true := by
      simp [orientationStep, orientationMagnetometer, hm]
    rw [hload, orientationUpdate_next lib (by simp [hts, ha])]
    rfl

end Steady

section Convergence

variable {ε : ℝ} {o : Orientation ℝ}

/-- What an update leaves at most of the square of the sine. -/
def filterRate {K : Type} [Field K] (ε : K) : K := 1 / (1 + (1 / 1000 * damp ε (1 / 2)) ^ 2)

theorem filterRate_nonneg (ε : ℝ) : 0 ≤ filterRate ε := by
  unfold filterRate
  positivity

theorem orientationApproach_misalign (hε : 0 < ε) {Q q : Quaternion ℝ} (hQ : Q.row ≠ 0)
    (hq : 1 / 2 ≤ quaternionMag Real.sqrt q) (hq0 : q.row ≠ 0) :
    misalign (orientationApproach (exactLibrary ε) Q q).row q.row ≤
      filterRate ε * misalign Q.row q.row := by
  obtain ⟨hmin, hmax⟩ := orientationRate_bounds (ε := ε) q Q
  have hstep := quaternionSlerp_misalign hε hQ hq0
    (t := orientationRate (exactLibrary ε) q Q) (by linarith) (by linarith)
  have hdamp := damp_mono hε (by norm_num) hq
  have hhalf : 0 ≤ damp ε (1 / 2) := damp_nonneg hε (by norm_num)
  have hle : (1 / 1000 * damp ε (1 / 2)) ^ 2 ≤
      (orientationRate (exactLibrary ε) q Q * damp ε (quaternionMag Real.sqrt q)) ^ 2 :=
    pow_le_pow_left₀ (by positivity) (mul_le_mul hmin hdamp hhalf (by linarith)) 2
  apply hstep.trans
  apply mul_le_mul_of_nonneg_right _ (misalign_nonneg _ _)
  exact one_div_le_one_div_of_le (by positivity) (by linarith)

theorem orientationRun_repeats (hε : 0 < ε) (ha : o.aTs ≠ 0) (hm : o.mTs ≠ 0) (hQ : o.Q.row ≠ 0)
    {calls : List (OrientationCall ℝ)} (hcalls : ∀ c ∈ calls, o.Repeats c) :
    misalign (orientationRun (exactLibrary ε) o calls).Q.row (o.target (exactLibrary ε)).row ≤
      filterRate ε ^ calls.length * misalign o.Q.row (o.target (exactLibrary ε)).row := by
  induction calls generalizing o with
  | nil => simp [orientationRun]
  | cons c calls ih =>
    obtain ⟨s, t, hs, ht, hstep⟩ :=
      orientationStep_repeats (exactLibrary ε) ha hm (hcalls c (by simp))
    have hq := mat4fQuaternion_mag (orientationMatrix (exactLibrary ε) o.mNorth
      ⟨o.aAx, o.aAy, o.aAz⟩ ⟨o.mMx, o.mMy, o.mMz⟩ ⟨o.mGfx, o.mGfy, o.mGfz⟩)
    have hcloser := orientationApproach_misalign hε hQ hq (mat4fQuaternion_ne_zero _)
    have hrest := ih (o := { o with
        aTs := s
        mTs := t
        Q := orientationApproach (exactLibrary ε) o.Q (o.target (exactLibrary ε)) })
      hs ht (orientationApproach_ne_zero hε hQ) fun c hc => hcalls c (by simp [hc])
    rw [orientationRun, List.foldl_cons, hstep, List.length_cons, pow_succ, mul_assoc]
    exact hrest.trans (mul_le_mul_of_nonneg_left hcloser (pow_nonneg (filterRate_nonneg ε) _))

/-- Once both sensors have reported, after any calls at all before, `n` repeated readings leave
the attitude as near to that of the readings as the `n`-th power of a fixed rate below one. -/
theorem orientation_converges (hε : 0 < ε) (memory : Orientation ℝ)
    (before calls : List (OrientationCall ℝ)) (m : Mat4 ℝ) :
    let o := orientationRun (exactLibrary ε) (orientationNew memory) before
    o.aTs ≠ 0 → o.mTs ≠ 0 → (∀ c ∈ calls, o.Repeats c) →
    filterRate ε < 1 ∧ ∀ i j,
      ((mat4fRotateq m true
          ((orientationRun (exactLibrary ε) o calls).Q.unit Real.sqrt)).toMatrix i j -
        (mat4fRotateq m true ((o.target (exactLibrary ε)).unit Real.sqrt)).toMatrix i j) ^ 2 ≤
      4 * filterRate ε ^ calls.length := by
  intro o ha hm hcalls
  have hfiltered : Filtered ε before o.Q := orientationRun_filtered hε memory before
  constructor
  · have hpos : 0 < (1 / 1000 * damp ε (1 / 2)) ^ 2 := by
      have := damp_pos hε (show (0 : ℝ) < 1 / 2 by norm_num)
      positivity
    rw [filterRate, div_lt_one (by linarith)]
    linarith
  · intro i j
    have hboth : orientationRun (exactLibrary ε) o calls =
        orientationRun (exactLibrary ε) (orientationNew memory) (before ++ calls) :=
      List.foldl_append.symm
    have hend : (orientationRun (exactLibrary ε) o calls).Q.row ≠ 0 := by
      rw [hboth]
      exact (orientationRun_filtered hε memory (before ++ calls)).nonzero
    have hrun := orientationRun_repeats hε ha hm hfiltered.nonzero hcalls
    have hone := misalign_le_one o.Q.row (o.target (exactLibrary ε)).row
    have hrate := pow_nonneg (filterRate_nonneg ε) calls.length
    calc _ ≤ 4 * misalign (orientationRun (exactLibrary ε) o calls).Q.row
          (o.target (exactLibrary ε)).row :=
          rotation_unit_diff hend (mat4fQuaternion_ne_zero _) m i j
      _ ≤ 4 * filterRate ε ^ calls.length := by nlinarith

/-- Half a turn adds nothing along the quaternion. -/
theorem quaternionProduct_half {K : Type} [Field K] (u w : Quaternion K) (hw : w.s = 0) :
    (quaternionProduct u w).row ⬝ᵥ u.row = 0 := by
  rw [Quaternion.row, Quaternion.row, ← vec4Dot_eq]
  simp only [quaternionProduct, vec4Dot, Quaternion.vec4, hw]
  ring

/-- Upright, turned away as far as can be, and then one more reading of each sensor. -/
theorem orientation_converges_turned :
    let memory : Orientation ℝ :=
      ⟨3, 3, 3, 3, 3, 3, 3, 3, 3, 3, 3, 3, 3, 3, 3, 3, 3, quaternionIdentity⟩
    let before : List (OrientationCall ℝ) := [.gyroscope 1 0 0 0, .accelerometer 1 0 0 10 0,
      .magnetometer 1 0 1 0 0 1 0, .gyroscope 2 0 0 Real.pi]
    let calls : List (OrientationCall ℝ) :=
      [.magnetometer 3 0 1 0 0 1 0, .accelerometer 3 0 0 10 0]
    let o := orientationRun (exactLibrary 1) (orientationNew memory) before
    misalign o.Q.row (o.target (exactLibrary 1)).row = 1 ∧ ∀ i j,
      ((mat4fRotateq Mat4.identity true
          ((orientationRun (exactLibrary 1) o calls).Q.unit Real.sqrt)).toMatrix i j -
        (mat4fRotateq Mat4.identity true
          ((o.target (exactLibrary 1)).unit Real.sqrt)).toMatrix i j) ^ 2 ≤
      4 * filterRate 1 ^ 2 := by
  intro memory before calls o
  let turn := orientationTurn (exactLibrary 1) (2 - 1) 0 0 Real.pi
  have ho : o = { orientationNew memory with
      aTs := 1, aAx := 0, aAy := 0, aAz := 10, mTs := 1, mMx := 0, mMy := 1, mMz := 0, mGfx := 0,
      mGfy := 1, mGfz := 0, gTs := 2, gAx := 0, gAy := 0, gAz := Real.pi
      Q := quaternionRotateq (exactLibrary 1).sqrt (exactLibrary 1).eps (orientationTarget
        (exactLibrary 1) ccOrientationTrue ⟨0, 0, 10⟩ ⟨0, 1, 0⟩ ⟨0, 1, 0⟩) turn } := by
    simp [o, turn, before, orientationRun, orientationStep, orientationAccelerometer,
      orientationMagnetometer, orientationGyroscope, orientationUpdate, orientationNew,
      orientationReset]
  have hQ : o.Q = quaternionRotateq Real.sqrt 1 (o.target (exactLibrary 1)) turn := by
    rw [ho]
    rfl
  have hhalf : turn.s = 0 := by
    have hangle : Real.pi / 180 * (180 / Real.pi * Real.pi * (2 - 1)) / 2 = Real.pi / 2 := by
      have hpi := Real.pi_ne_zero
      field_simp
      norm_num
    have hmag : Real.sqrt (0 * 0 + 0 * 0 + Real.pi * Real.pi) = Real.pi := by
      rw [zero_mul, zero_add, zero_add, Real.sqrt_mul_self Real.pi_pos.le]
    show Real.cos (Real.pi / 180 * (180 / Real.pi * Real.sqrt (0 * 0 + 0 * 0 + Real.pi * Real.pi) *
      (2 - 1)) / 2) * _ = 0
    rw [hmag, hangle, Real.cos_pi_div_two, zero_mul]
  have hdot : o.Q.row ⬝ᵥ (o.target (exactLibrary 1)).row = 0 := by
    rw [hQ, quaternionRotateq, quaternionNormalize, quaternionMuls_row, smul_dotProduct,
      quaternionProduct_half _ _ hhalf, smul_zero]
  have ha : o.aTs ≠ 0 := by simp [ho]
  have hm : o.mTs ≠ 0 := by simp [ho]
  have hcalls : ∀ c ∈ calls, o.Repeats c := by
    simp [calls, ho, Orientation.Repeats, orientationNew, orientationReset]
  refine ⟨?_, (orientation_converges one_pos memory before calls Mat4.identity ha hm hcalls).2⟩
  rw [misalign, hdot]
  norm_num

end Convergence

end LibCC
