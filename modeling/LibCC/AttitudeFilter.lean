import LibCC.Attitude

/-! The attitude of cc_orientation.c in any run: it always stands for a
rotation, and with readings that do not change it tends to theirs. -/

namespace LibCC

open DampedNorm Misalignment

section Inversion

variable {K : Type}

/-- The readings are among those of the calls, and north is what a call or cc_orientation_new
chose. -/
structure Reported (calls : List (OrientationCall K)) (north : Int) (up at_ gf : Vec3 K) :
    Prop where
  choice : north = ccOrientationTrue ∨ .north north ∈ calls
  accelerometer : ∃ ts rotation, .accelerometer ts up.x up.y up.z rotation ∈ calls
  magnetometer : ∃ ts, .magnetometer ts at_.x at_.y at_.z gf.x gf.y gf.z ∈ calls

variable [Field K] [LinearOrder K] (lib : MathLibrary K) {calls : List (OrientationCall K)}

/-- What one call can do to the filtered quaternion. -/
inductive QuaternionStep (calls : List (OrientationCall K)) (Q : Quaternion K) :
    Quaternion K → Prop where
  | kept : QuaternionStep calls Q Q
  | identity : QuaternionStep calls Q quaternionIdentity
  | target {north : Int} {up at_ gf : Vec3 K} : Reported calls north up at_ gf →
      QuaternionStep calls Q (orientationTarget lib north up at_ gf)
  | approach {north : Int} {up at_ gf : Vec3 K} : Reported calls north up at_ gf →
      QuaternionStep calls Q (orientationApproach lib Q (orientationTarget lib north up at_ gf))
  | turn (dt ax ay az : K) :
      QuaternionStep calls Q
        (quaternionRotateq lib.sqrt lib.eps Q (orientationTurn lib dt ax ay az))

/-- A sensor that has a time has its reading from one of the calls. -/
structure Orientation.Heard (calls : List (OrientationCall K)) (o : Orientation K) : Prop where
  choice : o.mNorth = ccOrientationTrue ∨ .north o.mNorth ∈ calls
  accelerometer : o.aTs ≠ 0 → ∃ ts rotation,
    .accelerometer ts o.aAx o.aAy o.aAz rotation ∈ calls
  magnetometer : o.mTs ≠ 0 → ∃ ts,
    .magnetometer ts o.mMx o.mMy o.mMz o.mGfx o.mGfy o.mGfz ∈ calls

variable {o : Orientation K}

omit [LinearOrder K] in
theorem Orientation.Heard.reset (h : o.Heard calls) : (orientationReset o).Heard calls :=
  ⟨h.choice, fun hts => absurd rfl hts, fun hts => absurd rfl hts⟩

theorem orientationUpdate_step (h : o.Heard calls) (slerp : Bool) :
    QuaternionStep lib calls o.Q (orientationUpdate lib o slerp).Q ∧
      (orientationUpdate lib o slerp).Heard calls := by
  by_cases hwait : o.aTs = 0 ∨ o.mTs = 0
  · rw [orientationUpdate_waits lib hwait]
    exact ⟨.kept, h⟩
  · obtain ⟨ha, hm⟩ := not_or.mp hwait
    have hreported : Reported calls o.mNorth ⟨o.aAx, o.aAy, o.aAz⟩ ⟨o.mMx, o.mMy, o.mMz⟩
        ⟨o.mGfx, o.mGfy, o.mGfz⟩ := ⟨h.choice, h.accelerometer ha, h.magnetometer hm⟩
    cases slerp with
    | false =>
      rw [orientationUpdate_first lib hwait]
      exact ⟨.target hreported, h.choice, h.accelerometer, h.magnetometer⟩
    | true =>
      rw [orientationUpdate_next lib hwait]
      exact ⟨.approach hreported, h.choice, h.accelerometer, h.magnetometer⟩

theorem orientationStep_step (h : o.Heard calls) {c : OrientationCall K} (hc : c ∈ calls) :
    QuaternionStep lib calls o.Q (orientationStep lib o c).Q ∧
      (orientationStep lib o c).Heard calls := by
  cases c with
  | north value => exact ⟨.kept, .inr hc, h.accelerometer, h.magnetometer⟩
  | reset => exact ⟨.identity, h.reset⟩
  | accelerometer ts ax ay az rotation =>
    change QuaternionStep lib calls o.Q (orientationAccelerometer lib o ts ax ay az rotation).Q ∧
      (orientationAccelerometer lib o ts ax ay az rotation).Heard calls
    by_cases hrotation : rotation = o.aRotation
    · rw [orientationAccelerometer, if_neg (not_not.mpr hrotation)]
      exact orientationUpdate_step lib (o := { o with
        aTs := ts, aAx := ax, aAy := ay, aAz := az, aRotation := rotation })
        ⟨h.choice, fun _ => ⟨ts, rotation, hc⟩, h.magnetometer⟩ _
    · -- After a reset the magnetometer is missing.
      rw [orientationAccelerometer, if_pos hrotation, orientationUpdate_waits lib (Or.inr rfl)]
      exact ⟨.identity, h.choice, fun _ => ⟨ts, rotation, hc⟩, fun hts => absurd rfl hts⟩
  | magnetometer ts mx my mz gfx gfy gfz =>
    exact orientationUpdate_step lib (o := { o with
      mTs := ts, mMx := mx, mMy := my, mMz := mz, mGfx := gfx, mGfy := gfy, mGfz := gfz })
      ⟨h.choice, h.accelerometer, fun _ => ⟨ts, hc⟩⟩ _
  | gyroscope ts ax ay az =>
    change QuaternionStep lib calls o.Q (orientationGyroscope lib o ts ax ay az).Q ∧
      (orientationGyroscope lib o ts ax ay az).Heard calls
    rw [orientationGyroscope]
    dsimp only
    split_ifs
    · exact ⟨.turn .., h.choice, h.accelerometer, h.magnetometer⟩
    · exact ⟨.kept, h.choice, h.accelerometer, h.magnetometer⟩

end Inversion

section Target

variable {m : Mat4 ℝ}

/-- Every branch takes the root of a number that is large enough, whatever the matrix is. -/
theorem one_le_mat4fQuaternionBranch (m : Mat4 ℝ) : 1 ≤ (mat4fQuaternionBranch m).1 := by
  unfold mat4fQuaternionBranch
  dsimp only
  split_ifs with htr hxmax hymax
  · linarith
  · obtain ⟨hxy, hxz⟩ := hxmax
    linarith
  · have hyx : m.m00 ≤ m.m11 := by
      by_contra hlt
      exact hxmax ⟨by linarith, by linarith⟩
    linarith
  · have hzx : m.m00 ≤ m.m22 := by
      by_contra hlt
      exact hxmax ⟨by linarith, by linarith⟩
    linarith

/-- One component is a quarter of the divisor. -/
theorem mat4fQuaternionBranch_component (m : Mat4 ℝ) (s : ℝ) :
    ∃ i, ((mat4fQuaternionBranch m).2 s).row i = 1 / 4 * s := by
  unfold mat4fQuaternionBranch
  dsimp only
  split_ifs with htr hxmax hymax
  · exact ⟨3, rfl⟩
  · exact ⟨0, rfl⟩
  · exact ⟨1, rfl⟩
  · exact ⟨2, rfl⟩

theorem mat4fQuaternion_mag (m : Mat4 ℝ) :
    1 / 2 ≤ quaternionMag Real.sqrt (mat4fQuaternion Real.sqrt m) := by
  have hroot : 1 ≤ Real.sqrt (mat4fQuaternionBranch m).1 :=
    Real.one_le_sqrt.mpr (one_le_mat4fQuaternionBranch m)
  obtain ⟨i, hi⟩ := mat4fQuaternionBranch_component m (mat4fQuaternionDivisor Real.sqrt m)
  have hdot := sq_le_dot_self (mat4fQuaternion Real.sqrt m).row i
  rw [mat4fQuaternion, hi, mat4fQuaternionDivisor] at hdot
  rw [quaternionMag_row]
  apply Real.le_sqrt_of_sq_le
  apply le_trans _ hdot
  nlinarith

theorem mat4fQuaternion_ne_zero (m : Mat4 ℝ) : (mat4fQuaternion Real.sqrt m).row ≠ 0 := by
  intro hzero
  have hmag := mat4fQuaternion_mag m
  rw [quaternionMag_row, hzero, dotProduct_zero, Real.sqrt_zero] at hmag
  linarith

end Target

section Nonzero

variable {ε : ℝ} {a b : Quaternion ℝ} {o : Orientation ℝ}

theorem orientationRate_bounds (q Q : Quaternion ℝ) :
    1 / 1000 ≤ orientationRate (exactLibrary ε) q Q ∧
      orientationRate (exactLibrary ε) q Q ≤ 4 / 1000 := by
  have herr := mul_self_nonneg (quaternionCompare (exactLibrary ε).sqrt q Q)
  unfold orientationRate
  dsimp only
  split_ifs <;> constructor <;> linarith

theorem orientationApproach_ne_zero (hε : 0 < ε) (ha : a.row ≠ 0) :
    (orientationApproach (exactLibrary ε) a b).row ≠ 0 := by
  obtain ⟨hmin, hmax⟩ := orientationRate_bounds (ε := ε) b a
  exact quaternionSlerp_ne_zero hε ha (by linarith) (by linarith)

/-- The magnitude of a product is the product of the magnitudes. -/
theorem quaternionProduct_dot (a b : Quaternion ℝ) :
    (quaternionProduct a b).row ⬝ᵥ (quaternionProduct a b).row =
      a.row ⬝ᵥ a.row * b.row ⬝ᵥ b.row := by
  simp only [Quaternion.row, ← vec4Dot_eq, vec4Dot, Quaternion.vec4, quaternionProduct]
  ring

theorem quaternionRotateq_ne_zero (hε : 0 < ε) (ha : a.row ≠ 0) (hb : b.row ≠ 0) :
    (quaternionRotateq Real.sqrt ε a b).row ≠ 0 := by
  apply quaternionNormalize_ne_zero hε
  apply ne_zero_of_dot
  rw [quaternionProduct_dot]
  exact mul_pos (dot_self_pos ha) (dot_self_pos hb)

/-- The axis of a turn is the reading as it is, which is zero only where the angle is. -/
theorem orientationTurn_ne_zero (hε : 0 < ε) (dt ax ay az : ℝ) :
    (orientationTurn (exactLibrary ε) dt ax ay az).row ≠ 0 := by
  apply quaternionNormalize_ne_zero hε
  intro hzero
  let mag := Real.sqrt (ax * ax + ay * ay + az * az)
  let angle := Real.pi / 180 * (180 / Real.pi * mag * dt) / 2
  have hx : ax * Real.sin angle = 0 := congrFun hzero 0
  have hy : ay * Real.sin angle = 0 := congrFun hzero 1
  have hz : az * Real.sin angle = 0 := congrFun hzero 2
  have hcos : Real.cos angle = 0 := congrFun hzero 3
  have hsin : Real.sin angle ≠ 0 := by
    intro hsin
    have hone := Real.sin_sq_add_cos_sq angle
    rw [hsin, hcos] at hone
    norm_num at hone
  have hmag : mag = 0 := by
    simp only [mag, (mul_eq_zero_iff_right hsin).mp hx, (mul_eq_zero_iff_right hsin).mp hy,
      (mul_eq_zero_iff_right hsin).mp hz, mul_zero, add_zero, Real.sqrt_zero]
  have hangle : angle = 0 := by simp only [angle, hmag, mul_zero, zero_mul, zero_div]
  rw [hangle, Real.cos_zero] at hcos
  exact one_ne_zero hcos

theorem quaternionIdentity_ne_zero : (quaternionIdentity : Quaternion ℝ).row ≠ 0 := by
  intro hzero
  exact one_ne_zero (congrFun hzero 3)

theorem quaternionNormalize_mag_lt (hε : 0 < ε) (q : Quaternion ℝ) :
    quaternionMag Real.sqrt (quaternionNormalize Real.sqrt ε q) < 1 := by
  have hmag := quaternionMag_nonneg q
  rw [quaternionMag_row, quaternionNormalize_dot, Real.sqrt_sq (damp_nonneg hε hmag)]
  exact damp_lt_one hε hmag

theorem orientationApproach_mag_lt (hε : 0 < ε) (a b : Quaternion ℝ) :
    quaternionMag Real.sqrt (orientationApproach (exactLibrary ε) a b) < 1 := by
  obtain ⟨hmin, hmax⟩ := orientationRate_bounds (ε := ε) b a
  obtain ⟨-, -, -, c, -, -, -, -, -, -, heq⟩ := quaternionSlerp_weights (ε := ε) a b
    (t := orientationRate (exactLibrary ε) b a) (by linarith) (by linarith)
  have happroach : orientationApproach (exactLibrary ε) a b = quaternionNormalize Real.sqrt ε c :=
    heq
  rw [happroach]
  exact quaternionNormalize_mag_lt hε c

end Nonzero

section Turn

/-- Numbers that are the sine and the cosine of an angle times a length. -/
theorem exists_angle (s c : ℝ) : ∃ α, Real.sqrt (s ^ 2 + c ^ 2) * Real.sin α = s ∧
    Real.sqrt (s ^ 2 + c ^ 2) * Real.cos α = c := by
  have hnorm : Real.sqrt (s ^ 2 + c ^ 2) = ‖(⟨c, s⟩ : ℂ)‖ := by
    rw [Complex.norm_def, Complex.normSq_apply]
    congr 1
    ring
  rw [hnorm]
  exact ⟨Complex.arg ⟨c, s⟩, Complex.norm_mul_sin_arg _, Complex.norm_mul_cos_arg _⟩

/-- A call of cc_orientation_gyroscope turns about the axis of the reading, by an angle whose half
has the tangent of the integrated half angle times the rate. -/
theorem orientationTurn_rotate (ε dt : ℝ) (self : Mat4 ℝ) {v : Vec3 ℝ} (hv : v ≠ ⟨0, 0, 0⟩) :
    let n := vec3Mag Real.sqrt v
    let φ := n * dt / 2
    let r := Real.sqrt ((n * Real.sin φ) ^ 2 + Real.cos φ ^ 2)
    0 < r ∧ ∃ θ, r * Real.sin (θ / 2 * (Real.pi / 180)) = n * Real.sin φ ∧
      r * Real.cos (θ / 2 * (Real.pi / 180)) = Real.cos φ ∧
      (mat4fRotateq self true (orientationTurn (exactLibrary ε) dt v.x v.y v.z)).toMatrix =
        (1 - damp ε r ^ 2) • 1 + damp ε r ^ 2 •
          (mat4fRotate Real.sqrt Real.sin Real.cos Real.pi self true θ v.x v.y v.z).toMatrix := by
  intro n φ r
  have hpos : 0 < n := Real.sqrt_pos.mpr (vec3Dot_self_pos hv)
  obtain ⟨α, hsin, hcos⟩ := exists_angle (n * Real.sin φ) (Real.cos φ)
  have hr : 0 < r := by
    apply Real.sqrt_pos.mpr
    by_cases hzero : Real.cos φ = 0
    · have hone := Real.sin_sq_add_cos_sq φ
      have hsinφ : Real.sin φ ≠ 0 := by
        intro hsinφ
        rw [hsinφ, hzero] at hone
        norm_num at hone
      positivity
    · positivity
  have hangle : α * (360 / Real.pi) / 2 * (Real.pi / 180) = α := by
    field_simp
    ring
  refine ⟨hr, α * (360 / Real.pi), by rw [hangle]; exact hsin, by rw [hangle]; exact hcos, ?_⟩
  let u := axisTurn Real.sin Real.cos Real.pi (vec3Muls v (1 / n)) (α * (360 / Real.pi))
  have hu : u.Normalized := axisTurn_normalized Real.pi (vec3_unit (vec3Dot_self_pos hv)) _
  have hcomponent : ∀ x, x * Real.sin φ = 1 / n * x * Real.sin α * r := by
    intro x
    field_simp
    linear_combination -x * hsin
  have hload : quaternionLoad (v.x * Real.sin φ) (v.y * Real.sin φ) (v.z * Real.sin φ)
      (Real.cos φ) = quaternionMuls u r := by
    simp only [u, axisTurn, axisQuaternion, hangle, quaternionLoad, quaternionMuls, vec3Muls]
    apply Quaternion.ext
    · apply Vec3.ext <;> exact hcomponent _
    · linear_combination -hcos
  have hφ : Real.pi / 180 * (180 / Real.pi * n * dt) / 2 = φ := by
    simp only [φ]
    field_simp
  have hturn : orientationTurn (exactLibrary ε) dt v.x v.y v.z = quaternionMuls u (damp ε r) := by
    have hnormalize : orientationTurn (exactLibrary ε) dt v.x v.y v.z =
        quaternionNormalize Real.sqrt ε (quaternionLoad (v.x * Real.sin φ) (v.y * Real.sin φ)
          (v.z * Real.sin φ) (Real.cos φ)) := by
      rw [← hφ]
      rfl
    rw [hnormalize, hload, quaternionNormalize, quaternionMag_muls hu hr.le, quaternionMuls_muls,
      damp, mul_one_div]
  rw [hturn, mat4fRotateq_muls, mat4fRotate_axis self true _ hv, sq]

/-- Two radians a second for an eighth of a turn: the half angle has the tangent 2. -/
theorem orientationTurn_rotate_eighth :
    let r := Real.sqrt ((2 * Real.sin (Real.pi / 4)) ^ 2 + Real.cos (Real.pi / 4) ^ 2)
    ∃ θ, 0 < Real.cos (θ / 2 * (Real.pi / 180)) ∧
      Real.sin (θ / 2 * (Real.pi / 180)) = 2 * Real.cos (θ / 2 * (Real.pi / 180)) ∧
      (mat4fRotateq Mat4.identity true
          (orientationTurn (exactLibrary 1) (Real.pi / 4) 0 0 2)).toMatrix =
        (1 - damp 1 r ^ 2) • 1 + damp 1 r ^ 2 • (mat4fRotate Real.sqrt Real.sin Real.cos Real.pi
          Mat4.identity true θ 0 0 2).toMatrix := by
  intro r
  have hmag : vec3Mag Real.sqrt (⟨0, 0, 2⟩ : Vec3 ℝ) = 2 := by
    simp [vec3Mag]
  have hangle : (2 : ℝ) * (Real.pi / 4) / 2 = Real.pi / 4 := by ring
  have hturn := orientationTurn_rotate 1 (Real.pi / 4) Mat4.identity
    (show (⟨0, 0, 2⟩ : Vec3 ℝ) ≠ ⟨0, 0, 0⟩ by simp)
  rw [hmag] at hturn
  dsimp only at hturn
  rw [hangle] at hturn
  obtain ⟨hr, θ, hsin, hcos, hmatrix⟩ := hturn
  have hpos : 0 < Real.cos (Real.pi / 4) := by
    rw [Real.cos_pi_div_four]
    positivity
  refine ⟨θ, pos_of_mul_pos_right (hpos.trans_eq hcos.symm) hr.le, mul_left_cancel₀ hr.ne' ?_,
    hmatrix⟩
  calc r * Real.sin (θ / 2 * (Real.pi / 180))
      = 2 * Real.cos (Real.pi / 4) := by
        rw [hsin, Real.sin_pi_div_four, Real.cos_pi_div_four]
    _ = r * (2 * Real.cos (θ / 2 * (Real.pi / 180))) := by
        rw [← hcos]
        ring

end Turn

section Run

variable {ε : ℝ} {Q Q' : Quaternion ℝ} {calls : List (OrientationCall ℝ)}

/-- The quaternion of the filter stands for a rotation. It is shorter than one, unless it is the
identity or was copied from readings of the calls. -/
structure Filtered (ε : ℝ) (calls : List (OrientationCall ℝ)) (Q : Quaternion ℝ) : Prop where
  nonzero : Q.row ≠ 0
  length : quaternionMag Real.sqrt Q < 1 ∨ Q = quaternionIdentity ∨
    ∃ north up at_ gf, Reported calls north up at_ gf ∧
      Q = orientationTarget (exactLibrary ε) north up at_ gf

theorem QuaternionStep.filtered (hε : 0 < ε) (hstep : QuaternionStep (exactLibrary ε) calls Q Q')
    (h : Filtered ε calls Q) : Filtered ε calls Q' := by
  cases hstep with
  | kept => exact h
  | identity => exact ⟨quaternionIdentity_ne_zero, Or.inr (Or.inl rfl)⟩
  | target hreported =>
    exact ⟨mat4fQuaternion_ne_zero _, Or.inr (Or.inr ⟨_, _, _, _, hreported, rfl⟩)⟩
  | approach hreported =>
    exact ⟨orientationApproach_ne_zero hε h.nonzero, Or.inl (orientationApproach_mag_lt hε _ _)⟩
  | turn dt ax ay az =>
    exact ⟨quaternionRotateq_ne_zero hε h.nonzero (orientationTurn_ne_zero hε dt ax ay az),
      Or.inl (quaternionNormalize_mag_lt hε _)⟩

theorem orientationRun_filtered (hε : 0 < ε) (memory : Orientation ℝ)
    (calls : List (OrientationCall ℝ)) :
    Filtered ε calls (orientationRun (exactLibrary ε) (orientationNew memory) calls).Q := by
  have hrun : ∀ (later : List (OrientationCall ℝ)) (o : Orientation ℝ), later ⊆ calls →
      o.Heard calls → Filtered ε calls o.Q →
      Filtered ε calls (orientationRun (exactLibrary ε) o later).Q := by
    intro later
    induction later with
    | nil => exact fun o _ _ h => h
    | cons c later ih =>
      intro o hsub hheard h
      obtain ⟨hc, hlater⟩ := List.cons_subset.mp hsub
      obtain ⟨hstep, hheard'⟩ := orientationStep_step (exactLibrary ε) hheard hc
      exact ih _ hlater hheard' (hstep.filtered hε h)
  have hnew : (orientationNew memory).Heard calls :=
    ⟨.inl rfl, fun hts => absurd rfl hts, fun hts => absurd rfl hts⟩
  exact hrun calls _ (List.Subset.refl calls) hnew ⟨quaternionIdentity_ne_zero, Or.inr (Or.inl rfl)⟩

/-- Whatever the sensors report and in whatever order, cc_orientation_mat4f loads a rotation that
is drawn towards the identity by what the quaternion is short of length one. -/
theorem orientation_run_rotation (hε : 0 < ε) (memory : Orientation ℝ)
    (calls : List (OrientationCall ℝ)) (m : Mat4 ℝ) :
    let o := orientationRun (exactLibrary ε) (orientationNew memory) calls
    let c := quaternionMag Real.sqrt o.Q
    0 < c ∧
    (c < 1 ∨ o.Q = quaternionIdentity ∨
      ∃ north up at_ gf, Reported calls north up at_ gf ∧
        o.Q = orientationTarget (exactLibrary ε) north up at_ gf) ∧
    ∃ R : Matrix (Fin 4) (Fin 4) ℝ, R * R.transpose = 1 ∧ R.det = 1 ∧
      (orientationMat4f o m).toMatrix = (1 - c * c) • 1 + (c * c) • R := by
  intro o c
  have h : Filtered ε calls o.Q := orientationRun_filtered hε memory calls
  have hc : 0 < c := quaternionMag_pos h.nonzero
  have hunit := Quaternion.unit_normalized hc
  refine ⟨hc, h.length, (mat4fRotateq m true (o.Q.unit Real.sqrt)).toMatrix, ?_, ?_, ?_⟩
  · rw [mat4fRotateq_load m _ hunit]
    exact rotationMatrix_mul_transpose hunit
  · rw [mat4fRotateq_load m _ hunit]
    exact rotationMatrix_det hunit
  · rw [← mat4fRotateq_muls, Quaternion.muls_unit hc]
    rfl

/-- In free fall, with both readings zero, and with a turn. -/
theorem orientation_run_rotation_fall :
    let memory : Orientation ℝ :=
      ⟨3, 3, 3, 3, 3, 3, 3, 3, 3, 3, 3, 3, 3, 3, 3, 3, 3, quaternionIdentity⟩
    let calls : List (OrientationCall ℝ) := [.accelerometer 1 0 0 0 0, .gyroscope 1 0 0 3,
      .magnetometer 1 0 0 0 0 0 0, .gyroscope 2 0 0 3]
    let o := orientationRun (exactLibrary 1) (orientationNew memory) calls
    let c := quaternionMag Real.sqrt o.Q
    0 < c ∧ (c < 1 ∨ o.Q = quaternionIdentity ∨
      o.Q = orientationTarget (exactLibrary 1) 0 ⟨0, 0, 0⟩ ⟨0, 0, 0⟩ ⟨0, 0, 0⟩) ∧
    ∃ R : Matrix (Fin 4) (Fin 4) ℝ, R * R.transpose = 1 ∧ R.det = 1 ∧
      (orientationMat4f o Mat4.identity).toMatrix = (1 - c * c) • 1 + (c * c) • R := by
  intro memory calls o c
  obtain ⟨hc, hlength, hmatrix⟩ := orientation_run_rotation one_pos memory calls Mat4.identity
  refine ⟨hc, hlength.imp_right fun h => h.imp_right ?_, hmatrix⟩
  rintro ⟨north, up, at_, gf, ⟨hnorth, ⟨ts, rotation, hup⟩, ⟨ts', hfield⟩⟩, hQ⟩
  have hzero : up = ⟨0, 0, 0⟩ := by
    apply Vec3.ext <;> simp [calls] at hup <;> simp [hup]
  have hzeros : at_ = ⟨0, 0, 0⟩ ∧ gf = ⟨0, 0, 0⟩ := by
    constructor <;> apply Vec3.ext <;> simp [calls] at hfield <;> simp [hfield]
  have htrue : north = 0 := by simpa [calls, ccOrientationTrue] using hnorth
  rw [hQ, hzero, hzeros.1, hzeros.2, htrue]

end Run

end LibCC
