import LibCC.Vec3

/-! The rays of cc_ray3f.c and cc_ray3d.c over exact numbers, and the two tests whether they hit
a sphere: one from the point of the ray that is nearest to the centre, and one from the roots of
a quadratic. -/

namespace LibCC

open ExactNumbers

/-- cc_ray3f_t and cc_ray3d_t. -/
structure Ray3 (K : Type) where
  p : Vec3 K
  v : Vec3 K

section Model

variable {K : Type} [Field K]

def ray3Getpoint (self : Ray3 K) (s : K) : Vec3 K :=
  ⟨self.p.x + s * self.v.x, self.p.y + s * self.v.y, self.p.z + s * self.v.z⟩

variable [LinearOrder K]

def ray3Hitsphere (sqrt : K → K) (self : Ray3 K) (s : Sphere K) : Bool :=
  let v := vec3Subv s.c self.p
  if vec3Mag sqrt v ≤ s.r then true -- ray origin inside sphere
  else
    let t := vec3Dot self.v v
    if t < 0 then false -- ray pointing in wrong direction
    else
      -- distance to the nearest point on the ray
      let v := vec3Muls self.v t
      let p := vec3Addv v self.p
      let v := vec3Subv s.c p
      let d := vec3Mag sqrt v
      if d < s.r then true else false

/-- The end of an intersection, from the quadratic `a*s*s + b*s + c` on: what is returned, with
what is written to `near` and `far`. -/
def ray3Roots (sqrt : K → K) (a b c : K) : Int × Option (K × K) :=
  let discriminant := b * b - 4 * a * c
  if discriminant < 0 then (0, none)
  else
    let t1 := (-b - sqrt discriminant) / (2 * a)
    let t2 := (-b + sqrt discriminant) / (2 * a)
    let near := if t1 > t2 then t2 else t1
    let far := if t1 > t2 then t1 else t2
    if near < 0 then
      if far < 0 then (0, none) else (1, some (0, far))
    else (2, some (near, far))

def ray3Intersect (sqrt : K → K) (ray : Ray3 K) (sphere : Sphere K) : Int × Option (K × K) :=
  let pc : Vec3 K :=
    ⟨ray.p.x - sphere.c.x, ray.p.y - sphere.c.y, ray.p.z - sphere.c.z⟩
  let a := ray.v.x * ray.v.x + ray.v.y * ray.v.y + ray.v.z * ray.v.z
  let b := 2 * (pc.x * ray.v.x + pc.y * ray.v.y + pc.z * ray.v.z)
  let c := pc.x * pc.x + pc.y * pc.y + pc.z * pc.z - sphere.r * sphere.r
  ray3Roots sqrt a b c

def ray3fHitsphere (sqrt : K → K) (self : Ray3 K) (s : Sphere K) : Bool :=
  ray3Hitsphere sqrt self s

def ray3dHitsphere (sqrt : K → K) (self : Ray3 K) (s : Sphere K) : Bool :=
  ray3Hitsphere sqrt self s

def ray3fIntersect (sqrt : K → K) (ray : Ray3 K) (sphere : Sphere K) : Int × Option (K × K) :=
  ray3Intersect sqrt ray sphere

def ray3dIntersect (sqrt : K → K) (ray : Ray3 K) (sphere : Sphere K) : Int × Option (K × K) :=
  ray3Intersect sqrt ray sphere

/-- The point is in the closed ball. -/
def Sphere.Has (s : Sphere K) (p : Vec3 K) : Prop :=
  vec3Dot (vec3Subv p s.c) (vec3Subv p s.c) ≤ s.r * s.r

/-- From the origin of the ray to the centre. -/
def Ray3.toCentre (ray : Ray3 K) (s : Sphere K) : Vec3 K := vec3Subv s.c ray.p

end Model

section Quadratic

variable {K : Type} [Field K] [LinearOrder K] [IsStrictOrderedRing K] {a b c d s : K}

theorem quadratic_factor (ha : a ≠ 0) (hd : d * d = b * b - 4 * a * c) (s : K) :
    a * s * s + b * s + c = a * (s - (-b - d) / (2 * a)) * (s - (-b + d) / (2 * a)) := by
  have hc : c = (b * b - d * d) / (4 * a) := by
    rw [hd]
    field_simp
    ring
  rw [hc]
  field_simp
  ring

theorem quadratic_le_zero_iff (ha : 0 < a) (h0 : 0 ≤ d) (hd : d * d = b * b - 4 * a * c) (s : K) :
    a * s * s + b * s + c ≤ 0 ↔ (-b - d) / (2 * a) ≤ s ∧ s ≤ (-b + d) / (2 * a) := by
  have hle : (-b - d) / (2 * a) ≤ (-b + d) / (2 * a) := by
    apply div_le_div_of_nonneg_right _ (by linarith)
    linarith
  rw [quadratic_factor ha.ne' hd, mul_assoc]
  generalize (-b - d) / (2 * a) = t1 at hle ⊢
  generalize (-b + d) / (2 * a) = t2 at hle ⊢
  constructor
  · intro h
    have hprod : (s - t1) * (s - t2) ≤ 0 := nonpos_of_mul_nonpos_right h ha
    rcases mul_nonpos_iff.mp hprod with ⟨h1, h2⟩ | ⟨h1, h2⟩
    · exact ⟨by linarith, by linarith⟩
    · exact ⟨by linarith, by linarith⟩
  · rintro ⟨h1, h2⟩
    apply mul_nonpos_of_nonneg_of_nonpos ha.le
    exact mul_nonpos_of_nonneg_of_nonpos (by linarith) (by linarith)

theorem quadratic_pos (ha : 0 < a) (h : b * b - 4 * a * c < 0) (s : K) :
    0 < a * s * s + b * s + c := by
  have hsq := mul_self_nonneg (2 * a * s + b)
  have heq : 4 * a * (a * s * s + b * s + c) =
      (2 * a * s + b) * (2 * a * s + b) - (b * b - 4 * a * c) := by ring
  have hpos : 0 < 4 * a * (a * s * s + b * s + c) := by
    rw [heq]
    linarith
  exact pos_of_mul_pos_right hpos (by linarith)

end Quadratic

/-- What the result of an intersection says: the ball is missed, or hit from `near` to `far`. -/
def IntersectSpec (ray : Ray3 ℝ) (sphere : Sphere ℝ) (result : Int × Option (ℝ × ℝ)) : Prop :=
  (result = (0, none) ∧ ∀ s, 0 ≤ s → ¬ sphere.Has (ray3Getpoint ray s)) ∨
  ∃ code near far, result = (code, some (near, far)) ∧ 0 ≤ near ∧ near ≤ far ∧
    (∀ s, 0 ≤ s → (sphere.Has (ray3Getpoint ray s) ↔ near ≤ s ∧ s ≤ far)) ∧
    (code = 1 ∧ sphere.Has ray.p ∨
      code = 2 ∧ sphere.r * sphere.r ≤ vec3Dot (vec3Subv ray.p sphere.c) (vec3Subv ray.p sphere.c))

section Intersect

variable {ray : Ray3 ℝ} {sphere : Sphere ℝ}

theorem has_getpoint_iff (ray : Ray3 ℝ) (sphere : Sphere ℝ) (s : ℝ) :
    sphere.Has (ray3Getpoint ray s) ↔
      vec3Dot ray.v ray.v * s * s + 2 * vec3Dot (vec3Subv ray.p sphere.c) ray.v * s +
        (vec3Dot (vec3Subv ray.p sphere.c) (vec3Subv ray.p sphere.c) -
          sphere.r * sphere.r) ≤ 0 := by
  have heq : vec3Dot ray.v ray.v * s * s + 2 * vec3Dot (vec3Subv ray.p sphere.c) ray.v * s +
      (vec3Dot (vec3Subv ray.p sphere.c) (vec3Subv ray.p sphere.c) - sphere.r * sphere.r) =
      vec3Dot (vec3Subv (ray3Getpoint ray s) sphere.c) (vec3Subv (ray3Getpoint ray s) sphere.c) -
        sphere.r * sphere.r := by
    simp only [vec3Dot, vec3Subv, ray3Getpoint]
    ring
  rw [heq, sub_nonpos]
  rfl

theorem getpoint_zero (ray : Ray3 ℝ) : ray3Getpoint ray 0 = ray.p := by
  simp [ray3Getpoint]

/-- The interval in which the quadratic is not positive, cut off at zero. -/
theorem ray3Roots_spec {a : ℝ} (ha : 0 < a) (b c : ℝ) :
    (ray3Roots Real.sqrt a b c = (0, none) ∧ ∀ s, 0 ≤ s → 0 < a * s * s + b * s + c) ∨
    ∃ code near far, ray3Roots Real.sqrt a b c = (code, some (near, far)) ∧ 0 ≤ near ∧
      near ≤ far ∧ (∀ s, 0 ≤ s → (a * s * s + b * s + c ≤ 0 ↔ near ≤ s ∧ s ≤ far)) ∧
      (code = 1 ∧ c ≤ 0 ∨ code = 2 ∧ 0 ≤ c) := by
  unfold ray3Roots
  dsimp only
  rcases lt_or_ge (b * b - 4 * a * c) 0 with hneg | hpos
  · rw [if_pos hneg]
    exact .inl ⟨rfl, fun s _ => quadratic_pos ha hneg s⟩
  · have hroot := Real.sqrt_nonneg (b * b - 4 * a * c)
    have hsq := Real.mul_self_sqrt hpos
    have hle : (-b - Real.sqrt (b * b - 4 * a * c)) / (2 * a) ≤
        (-b + Real.sqrt (b * b - 4 * a * c)) / (2 * a) :=
      div_le_div_of_nonneg_right (by linarith) (by linarith)
    have hfactor := quadratic_factor ha.ne' hsq 0
    have hiff := quadratic_le_zero_iff ha hroot hsq
    rw [if_neg (not_lt.mpr hpos), if_neg (not_lt.mpr hle), if_neg (not_lt.mpr hle)]
    generalize (-b - Real.sqrt (b * b - 4 * a * c)) / (2 * a) = t1 at hle hiff hfactor ⊢
    generalize (-b + Real.sqrt (b * b - 4 * a * c)) / (2 * a) = t2 at hle hiff hfactor ⊢
    -- the product of the roots has the sign of c
    have hc : c = a * (t1 * t2) := by
      rw [mul_zero, mul_zero, zero_add, zero_add] at hfactor
      rw [hfactor]
      ring
    split_ifs with h1 h2
    · refine .inl ⟨rfl, fun s hs => not_le.mp fun hf => ?_⟩
      linarith [((hiff s).mp hf).2]
    · refine .inr ⟨1, 0, t2, rfl, le_rfl, not_lt.mp h2, fun s hs => ?_, .inl ⟨rfl, ?_⟩⟩
      · rw [hiff]
        exact ⟨fun h => ⟨hs, h.2⟩, fun h => ⟨h1.le.trans hs, h.2⟩⟩
      · rw [hc]
        exact mul_nonpos_of_nonneg_of_nonpos ha.le
          (mul_nonpos_of_nonpos_of_nonneg h1.le (not_lt.mp h2))
    · refine .inr ⟨2, t1, t2, rfl, not_lt.mp h1, hle, fun s _ => hiff s, .inr ⟨rfl, ?_⟩⟩
      rw [hc]
      exact mul_nonneg ha.le (mul_nonneg (not_lt.mp h1) ((not_lt.mp h1).trans hle))

theorem ray3Intersect_spec (ray : Ray3 ℝ) (sphere : Sphere ℝ) (hv : ray.v ≠ ⟨0, 0, 0⟩) :
    IntersectSpec ray sphere (ray3Intersect Real.sqrt ray sphere) := by
  have hquad := has_getpoint_iff ray sphere
  have horigin := hquad 0
  rw [getpoint_zero, mul_zero, mul_zero, zero_add, zero_add, sub_nonpos] at horigin
  have hroots := ray3Roots_spec (vec3Dot_self_pos hv)
    (2 * vec3Dot (vec3Subv ray.p sphere.c) ray.v)
    (vec3Dot (vec3Subv ray.p sphere.c) (vec3Subv ray.p sphere.c) - sphere.r * sphere.r)
  rw [IntersectSpec]
  rcases hroots with ⟨he, hmiss⟩ | ⟨code, near, far, he, h0, hle, hhit, hcode⟩
  · exact .inl ⟨he, fun s hs => by rw [hquad, not_le]; exact hmiss s hs⟩
  · refine .inr ⟨code, near, far, he, h0, hle, fun s hs => by rw [hquad, hhit s hs], ?_⟩
    rw [sub_nonpos, sub_nonneg] at hcode
    rwa [horigin]

/-- Along a unit vector an offset falls short of its length by what it is off the vector. -/
theorem offset_sq (ray : Ray3 ℝ) (c : Vec3 ℝ) (hv : vec3Dot ray.v ray.v = 1) :
    let q := vec3Subv c ray.p
    let foot := vec3Addv (vec3Muls ray.v (vec3Dot ray.v q)) ray.p
    vec3Dot (vec3Subv c foot) (vec3Subv c foot) = vec3Dot q q - vec3Dot ray.v q ^ 2 := by
  intro q foot
  have hfoot : vec3Dot (vec3Subv c foot) (vec3Subv c foot) = vec3Dot q q -
      2 * vec3Dot ray.v q ^ 2 + vec3Dot ray.v q ^ 2 * vec3Dot ray.v ray.v := by
    simp only [foot, q, vec3Dot, vec3Subv, vec3Addv, vec3Muls]
    ring
  rw [hfoot, hv]
  ring

theorem vec3Mag_eq (q : Vec3 ℝ) : vec3Mag Real.sqrt q = Real.sqrt (vec3Dot q q) := rfl

theorem ray3Hitsphere_iff (ray : Ray3 ℝ) (s : Sphere ℝ) (hv : vec3Dot ray.v ray.v = 1)
    (hr : 0 ≤ s.r) :
    ray3Hitsphere Real.sqrt ray s = true ↔
      vec3Dot (ray.toCentre s) (ray.toCentre s) ≤ s.r * s.r ∨
        0 ≤ vec3Dot ray.v (ray.toCentre s) ∧
          vec3Dot (ray.toCentre s) (ray.toCentre s) - vec3Dot ray.v (ray.toCentre s) ^ 2 <
            s.r * s.r := by
  set q := ray.toCentre s with hq
  have hinside : vec3Mag Real.sqrt q ≤ s.r ↔ vec3Dot q q ≤ s.r * s.r := by
    rw [vec3Mag_eq, Real.sqrt_le_left hr, pow_two]
  have hdist : vec3Mag Real.sqrt (vec3Subv s.c (vec3Addv (vec3Muls ray.v (vec3Dot ray.v q))
      ray.p)) < s.r ↔ vec3Dot q q - vec3Dot ray.v q ^ 2 < s.r * s.r := by
    rw [vec3Mag_eq, Real.sqrt_lt (vec3Dot_self_nonneg _) hr, pow_two]
    exact iff_of_eq (congrArg (· < s.r * s.r) (offset_sq ray s.c hv))
  unfold ray3Hitsphere
  dsimp only
  rw [← hinside, ← hdist]
  split_ifs with h1 h2 h3
  · exact iff_of_true rfl (.inl h1)
  · exact iff_of_false (by simp) fun h => absurd (h.resolve_left h1).1 (not_le.mpr h2)
  · exact iff_of_true rfl (.inr ⟨not_lt.mp h2, h3⟩)
  · exact iff_of_false (by simp) fun h => absurd (h.resolve_left h1).2 h3

/-- An intersection is found when the origin is in the ball, or the line of the ray meets the
ball ahead of it. -/
theorem ray3Intersect_iff (ray : Ray3 ℝ) (s : Sphere ℝ) (hv : vec3Dot ray.v ray.v = 1) :
    (ray3Intersect Real.sqrt ray s).1 ≠ 0 ↔
      vec3Dot (ray.toCentre s) (ray.toCentre s) ≤ s.r * s.r ∨
        0 ≤ vec3Dot ray.v (ray.toCentre s) ∧
          vec3Dot (ray.toCentre s) (ray.toCentre s) - vec3Dot ray.v (ray.toCentre s) ^ 2 ≤
            s.r * s.r := by
  set q := ray.toCentre s with hq
  have hne : ray.v ≠ ⟨0, 0, 0⟩ := by
    intro h
    rw [h] at hv
    simp [vec3Dot] at hv
  have hmeets : (ray3Intersect Real.sqrt ray s).1 ≠ 0 ↔
      ∃ x, 0 ≤ x ∧ s.Has (ray3Getpoint ray x) := by
    rcases ray3Intersect_spec ray s hne with
      ⟨he, hmiss⟩ | ⟨code, near, far, he, h0, hle, hhit, hcode⟩
    · rw [he]
      exact iff_of_false (by simp) fun ⟨x, hx, hin⟩ => hmiss x hx hin
    · rw [he]
      refine iff_of_true ?_ ⟨near, h0, (hhit near h0).mpr ⟨le_rfl, hle⟩⟩
      rcases hcode with ⟨rfl, -⟩ | ⟨rfl, -⟩ <;> simp
  -- at distance x the point is nearest to the centre when x is the offset
  have hpoint : ∀ x, s.Has (ray3Getpoint ray x) ↔
      (x - vec3Dot ray.v q) ^ 2 + (vec3Dot q q - vec3Dot ray.v q ^ 2) ≤ s.r * s.r := by
    intro x
    have heq : vec3Dot (vec3Subv (ray3Getpoint ray x) s.c) (vec3Subv (ray3Getpoint ray x) s.c) =
        vec3Dot ray.v ray.v * x ^ 2 - 2 * x * vec3Dot ray.v q + vec3Dot q q := by
      simp only [hq, Ray3.toCentre, vec3Dot, vec3Subv, ray3Getpoint]
      ring
    unfold Sphere.Has
    rw [heq, hv]
    ring_nf
  rw [hmeets]
  constructor
  · rintro ⟨x, hx, hin⟩
    rw [hpoint] at hin
    rcases le_or_gt 0 (vec3Dot ray.v q) with ht | ht
    · exact .inr ⟨ht, by linarith [sq_nonneg (x - vec3Dot ray.v q)]⟩
    · refine .inl ?_
      have hfar : vec3Dot ray.v q ^ 2 ≤ (x - vec3Dot ray.v q) ^ 2 := by
        rw [sq_le_sq, abs_of_neg ht, abs_of_nonneg (by linarith)]
        linarith
      linarith
  · rintro (hin | ⟨ht, hin⟩)
    · refine ⟨0, le_rfl, (hpoint 0).mpr ?_⟩
      rw [zero_sub, neg_sq]
      linarith
    · refine ⟨vec3Dot ray.v q, ht, (hpoint _).mpr ?_⟩
      rw [sub_self]
      linarith

end Intersect

/-- The intersection tells where the ray is in the ball, for both precisions. -/
theorem ray_intersect_interval (ray : Ray3 ℝ) (sphere : Sphere ℝ) (hv : ray.v ≠ ⟨0, 0, 0⟩) :
    IntersectSpec ray sphere (ray3fIntersect Real.sqrt ray sphere) ∧
      IntersectSpec ray sphere (ray3dIntersect Real.sqrt ray sphere) :=
  ⟨ray3Intersect_spec ray sphere hv, ray3Intersect_spec ray sphere hv⟩

theorem ray_intersect_interval_axis :
    let ray : Ray3 ℝ := ⟨⟨0, 0, 0⟩, ⟨1, 0, 0⟩⟩
    IntersectSpec ray ⟨⟨2, 0, 0⟩, 1⟩ (ray3fIntersect Real.sqrt ray ⟨⟨2, 0, 0⟩, 1⟩) :=
  (ray_intersect_interval ⟨⟨0, 0, 0⟩, ⟨1, 0, 0⟩⟩ ⟨⟨2, 0, 0⟩, 1⟩ (by simp)).1

/-- The ray touches the sphere ahead of its origin, and no more. -/
def Ray3.Touches (ray : Ray3 ℝ) (s : Sphere ℝ) : Prop :=
  s.r * s.r < vec3Dot (ray.toCentre s) (ray.toCentre s) ∧
    0 ≤ vec3Dot ray.v (ray.toCentre s) ∧
    vec3Dot (ray.toCentre s) (ray.toCentre s) - vec3Dot ray.v (ray.toCentre s) ^ 2 = s.r * s.r

/-- The two tests agree unless the ray only touches the sphere. -/
theorem ray_tests_agree_iff (ray : Ray3 ℝ) (s : Sphere ℝ) (hv : vec3Dot ray.v ray.v = 1)
    (hr : 0 ≤ s.r) :
    ((ray3fHitsphere Real.sqrt ray s = true ↔ (ray3fIntersect Real.sqrt ray s).1 ≠ 0) ↔
      ¬ ray.Touches s) ∧
    ((ray3dHitsphere Real.sqrt ray s = true ↔ (ray3dIntersect Real.sqrt ray s).1 ≠ 0) ↔
      ¬ ray.Touches s) := by
  have h : (ray3Hitsphere Real.sqrt ray s = true ↔ (ray3Intersect Real.sqrt ray s).1 ≠ 0) ↔
      ¬ ray.Touches s := by
    rw [ray3Hitsphere_iff ray s hv hr, ray3Intersect_iff ray s hv, Ray3.Touches]
    constructor
    · rintro h ⟨hout, ht, hd⟩
      rcases h.mpr (.inr ⟨ht, hd.le⟩) with hin | ⟨-, hlt⟩
      · exact absurd hin (not_le.mpr hout)
      · exact absurd hd hlt.ne
    · intro h
      constructor
      · rintro (hin | ⟨ht, hd⟩)
        · exact .inl hin
        · exact .inr ⟨ht, hd.le⟩
      · rintro (hin | ⟨ht, hd⟩)
        · exact .inl hin
        · by_cases hin : vec3Dot (ray.toCentre s) (ray.toCentre s) ≤ s.r * s.r
          · exact .inl hin
          · exact .inr ⟨ht, lt_of_le_of_ne hd fun he => h ⟨not_le.mp hin, ht, he⟩⟩
  exact ⟨h, h⟩

theorem ray_tests_agree_iff_axis :
    let ray : Ray3 ℝ := ⟨⟨0, 0, 0⟩, ⟨1, 0, 0⟩⟩
    ray3fHitsphere Real.sqrt ray ⟨⟨2, 0, 0⟩, 1⟩ = true ↔
      (ray3fIntersect Real.sqrt ray ⟨⟨2, 0, 0⟩, 1⟩).1 ≠ 0 :=
  (ray_tests_agree_iff ⟨⟨0, 0, 0⟩, ⟨1, 0, 0⟩⟩ ⟨⟨2, 0, 0⟩, 1⟩ (by norm_num [vec3Dot])
    (by norm_num)).1.mpr (by norm_num [Ray3.Touches, Ray3.toCentre, vec3Dot, vec3Subv])

/-- A ray along an axis that touches a ball at one point. -/
theorem ray_tests_disagree :
    let ray : Ray3 ℝ := ⟨⟨0, 0, 0⟩, ⟨1, 0, 0⟩⟩
    let s : Sphere ℝ := ⟨⟨1, 1, 0⟩, 1⟩
    ray3fHitsphere Real.sqrt ray s = false ∧ (ray3fIntersect Real.sqrt ray s).1 ≠ 0 ∧
      ray3dHitsphere Real.sqrt ray s = false ∧ (ray3dIntersect Real.sqrt ray s).1 ≠ 0 := by
  intro ray s
  have hv : vec3Dot ray.v ray.v = 1 := by norm_num [ray, vec3Dot]
  have hmiss : ray3Hitsphere Real.sqrt ray s = false := by
    rw [← Bool.not_eq_true, ray3Hitsphere_iff ray s hv (by norm_num [s])]
    norm_num [ray, s, Ray3.toCentre, vec3Dot, vec3Subv]
  have hhit : (ray3Intersect Real.sqrt ray s).1 ≠ 0 := by
    rw [ray3Intersect_iff ray s hv]
    norm_num [ray, s, Ray3.toCentre, vec3Dot, vec3Subv]
  exact ⟨hmiss, hhit, hmiss, hhit⟩

end LibCC
