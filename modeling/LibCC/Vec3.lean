import Mathlib

/-! The vectors of cc_vec3f.c and cc_vec3d.c over exact numbers, and spheres. -/

namespace LibCC

namespace ExactNumbers

/-! The literals 2 and 4 of the formulas. -/

scoped instance atLeastTwo_two : Nat.AtLeastTwo 2 := ⟨le_rfl⟩

scoped instance atLeastTwo_four : Nat.AtLeastTwo 4 := ⟨by decide⟩

end ExactNumbers

/-- cc_vec3f_t and cc_vec3d_t. -/
@[ext] structure Vec3 (K : Type) where
  x : K
  y : K
  z : K

/-- cc_sphere_t and cc_sphere3f_t. -/
structure Sphere (K : Type) where
  c : Vec3 K
  r : K

variable {K : Type} [Field K]

def vec3Addv (a b : Vec3 K) : Vec3 K := ⟨a.x + b.x, a.y + b.y, a.z + b.z⟩

def vec3Subv (a b : Vec3 K) : Vec3 K := ⟨a.x - b.x, a.y - b.y, a.z - b.z⟩

def vec3Muls (a : Vec3 K) (s : K) : Vec3 K := ⟨s * a.x, s * a.y, s * a.z⟩

def vec3Dot (a b : Vec3 K) : K := a.x * b.x + a.y * b.y + a.z * b.z

/-- cc_vec3f_mag and cc_vec3d_mag. -/
def vec3Mag (sqrt : K → K) (a : Vec3 K) : K := sqrt (a.x * a.x + a.y * a.y + a.z * a.z)

variable {a b c : Vec3 K}

theorem vec3Dot_subv (a b c : Vec3 K) : vec3Dot a (vec3Subv b c) = vec3Dot a b - vec3Dot a c := by
  unfold vec3Dot vec3Subv
  ring

variable [LinearOrder K] [IsStrictOrderedRing K]

theorem vec3Dot_self_nonneg (a : Vec3 K) : 0 ≤ vec3Dot a a := by
  have hx := mul_self_nonneg a.x
  have hy := mul_self_nonneg a.y
  have hz := mul_self_nonneg a.z
  unfold vec3Dot
  linarith

theorem vec3Dot_self_pos (h : a ≠ ⟨0, 0, 0⟩) : 0 < vec3Dot a a := by
  apply lt_of_le_of_ne (vec3Dot_self_nonneg a)
  intro hzero
  have hx := mul_self_nonneg a.x
  have hy := mul_self_nonneg a.y
  have hz := mul_self_nonneg a.z
  unfold vec3Dot at hzero
  apply h
  ext
  · exact mul_self_eq_zero.mp (by linarith)
  · exact mul_self_eq_zero.mp (by linarith)
  · exact mul_self_eq_zero.mp (by linarith)

theorem vec3Dot_sq_le (a b : Vec3 K) : vec3Dot a b ^ 2 ≤ vec3Dot a a * vec3Dot b b := by
  have hx := sq_nonneg (a.y * b.z - a.z * b.y)
  have hy := sq_nonneg (a.z * b.x - a.x * b.z)
  have hz := sq_nonneg (a.x * b.y - a.y * b.x)
  have hlagrange : vec3Dot a a * vec3Dot b b = vec3Dot a b ^ 2 + ((a.y * b.z - a.z * b.y) ^ 2 +
      (a.z * b.x - a.x * b.z) ^ 2 + (a.x * b.y - a.y * b.x) ^ 2) := by
    unfold vec3Dot
    ring
  linarith

end LibCC
