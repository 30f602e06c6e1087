import LibCC.Vec3

/-! The planes of cc_plane.c and the frusta of cc_fplane.c over exact numbers: a sphere is never
clipped when one of its points is not. -/

namespace LibCC

/-- cc_plane_t -/
structure Plane (K : Type) where
  n : Vec3 K
  d : K

/-- cc_fplane_t -/
structure Fplane (K : Type) where
  near : Plane K
  farx : Plane K
  left : Plane K
  right : Plane K
  top : Plane K
  bottom : Plane K

variable {K : Type} [Field K]

def planeDistance (self : Plane K) (p : Vec3 K) : K :=
  let q := vec3Muls self.n self.d
  let v := vec3Subv p q
  vec3Dot self.n v

variable [LinearOrder K]

def planeClipsphere (self : Plane K) (s : Sphere K) : Bool :=
  let d := planeDistance self s.c
  decide (s.r + d < 0)

def fplaneClipsphere (self : Fplane K) (s : Sphere K) : Bool :=
  planeClipsphere self.near s ||
    planeClipsphere self.farx s ||
    planeClipsphere self.left s ||
    planeClipsphere self.right s ||
    planeClipsphere self.top s ||
    planeClipsphere self.bottom s

def fplaneClippoint (self : Fplane K) (pt : Vec3 K) : Bool :=
  decide (planeDistance self.near pt < 0) ||
    decide (planeDistance self.farx pt < 0) ||
    decide (planeDistance self.left pt < 0) ||
    decide (planeDistance self.right pt < 0) ||
    decide (planeDistance self.top pt < 0) ||
    decide (planeDistance self.bottom pt < 0)

def Fplane.planes (self : Fplane K) : List (Plane K) :=
  [self.near, self.farx, self.left, self.right, self.top, self.bottom]

omit [LinearOrder K] in
theorem planeDistance_sub (self : Plane K) (p c : Vec3 K) :
    planeDistance self c = planeDistance self p - vec3Dot self.n (vec3Subv p c) := by
  unfold planeDistance
  dsimp only
  rw [vec3Dot_subv, vec3Dot_subv, vec3Dot_subv]
  ring

theorem fplaneClipsphere_eq_false (self : Fplane K) (s : Sphere K) :
    fplaneClipsphere self s = false ↔ ∀ plane ∈ self.planes, 0 ≤ s.r + planeDistance plane s.c := by
  simp [fplaneClipsphere, planeClipsphere, Fplane.planes, and_assoc]

theorem fplaneClippoint_eq_false (self : Fplane K) (pt : Vec3 K) :
    fplaneClippoint self pt = false ↔ ∀ plane ∈ self.planes, 0 ≤ planeDistance plane pt := by
  simp [fplaneClippoint, Fplane.planes, and_assoc]

variable [IsStrictOrderedRing K]

/-- The part of an offset along a normal is no longer than the offset. -/
theorem vec3Dot_le_of_le {n v : Vec3 K} {r : K} (hn : vec3Dot n n ≤ 1) (hr : 0 ≤ r)
    (hv : vec3Dot v v ≤ r ^ 2) : vec3Dot n v ≤ r := by
  apply le_of_sq_le_sq _ hr
  calc vec3Dot n v ^ 2 ≤ vec3Dot n n * vec3Dot v v := vec3Dot_sq_le n v
    _ ≤ 1 * vec3Dot v v := mul_le_mul_of_nonneg_right hn (vec3Dot_self_nonneg v)
    _ ≤ r ^ 2 := by rwa [one_mul]

/-- A frustum whose normals have length at most 1 clips a sphere only when it clips all of the
points of the sphere, and clips a sphere of radius 0 just when it clips its centre. -/
theorem fplane_clips_conservatively (self : Fplane K) (s : Sphere K)
    (hn : ∀ plane ∈ self.planes, vec3Dot plane.n plane.n ≤ 1) (hr : 0 ≤ s.r) :
    (∀ p, vec3Dot (vec3Subv p s.c) (vec3Subv p s.c) ≤ s.r ^ 2 →
      fplaneClippoint self p = false → fplaneClipsphere self s = false) ∧
    (s.r = 0 → fplaneClipsphere self s = fplaneClippoint self s.c) := by
  constructor
  · intro p hp hclip
    rw [fplaneClippoint_eq_false] at hclip
    rw [fplaneClipsphere_eq_false]
    intro plane hplane
    have hdist := hclip plane hplane
    have hoff := vec3Dot_le_of_le (hn plane hplane) hr hp
    rw [planeDistance_sub plane p s.c]
    linarith
  · intro hzero
    apply Bool.eq_iff_iff.mpr
    rw [← not_iff_not, Bool.not_eq_true, Bool.not_eq_true, fplaneClipsphere_eq_false,
      fplaneClippoint_eq_false, hzero]
    simp only [zero_add]

/-- Six planes through the origin, and a ball around it that reaches the point. -/
theorem fplane_clips_conservatively_ball :
    let plane : Plane ℚ := ⟨⟨0, 0, 1⟩, 0⟩
    fplaneClipsphere ⟨plane, plane, plane, plane, plane, plane⟩ ⟨⟨0, 0, -1⟩, 1⟩ = false :=
  (fplane_clips_conservatively _ ⟨⟨0, 0, -1⟩, 1⟩
    (by simp [Fplane.planes, vec3Dot]) (by norm_num)).1 ⟨0, 0, 0⟩
      (by norm_num [vec3Dot, vec3Subv])
      (by simp [fplaneClippoint, planeDistance, vec3Dot, vec3Subv, vec3Muls])

end LibCC
