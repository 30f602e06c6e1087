import LibCC.Slerp

/-! The orientation filter of cc_orientation.c over exact numbers: its state,
its calls and their runs. -/

namespace LibCC

namespace ExactNumbers

/-- The literal 1000 of the rate. -/
scoped instance atLeastTwo_rate : Nat.AtLeastTwo 1000 := ⟨by decide⟩

end ExactNumbers

open ExactNumbers

/-- The functions of the math library, and FLT_EPSILON. -/
structure MathLibrary (K : Type) where
  sqrt : K → K
  acos : K → K
  sin : K → K
  cos : K → K
  pi : K
  eps : K

/-- Exact roots and angles. -/
noncomputable def exactLibrary (ε : ℝ) : MathLibrary ℝ where
  sqrt := Real.sqrt
  acos := Real.arccos
  sin := Real.sin
  cos := Real.cos
  pi := Real.pi
  eps := ε

/-- cc_orientation_t -/
structure Orientation (K : Type) where
  aTs : K
  aAx : K
  aAy : K
  aAz : K
  aRotation : Int
  mNorth : Int
  mTs : K
  mMx : K
  mMy : K
  mMz : K
  mGfx : K
  mGfy : K
  mGfz : K
  gTs : K
  gAx : K
  gAy : K
  gAz : K
  Q : Quaternion K

def ccOrientationTrue : Int := 0

/-- What a program does with the filter. The field `m_north` is written from outside. -/
inductive OrientationCall (K : Type) where
  | north (value : Int)
  | reset
  | accelerometer (ts ax ay az : K) (rotation : Int)
  | magnetometer (ts mx my mz gfx gfy gfz : K)
  | gyroscope (ts ax ay az : K)

variable {K : Type} [Field K] [LinearOrder K]

section Model

variable (lib : MathLibrary K)

/-- The matrix that cc_orientation_update loads into `m`. -/
def orientationMatrix (north : Int) (up at_ gf : Vec3 K) : Mat4 K :=
  let z := vec3Normalize lib.sqrt lib.eps up
  let x := vec3Cross at_ z
  let x := vec3Normalize lib.sqrt lib.eps x
  let y := vec3Cross z x
  let y := vec3Normalize lib.sqrt lib.eps y
  if north = ccOrientationTrue then
    let r : Mat4 K :=
      ⟨x.x, y.x, z.x, 0,
        x.y, y.y, z.y, 0,
        x.z, y.z, z.z, 0,
        0, 0, 0, 1⟩
    let z : Vec3 K := ⟨0, 0, 1⟩
    let x := vec3Cross gf z
    let x := vec3Normalize lib.sqrt lib.eps x
    let y := vec3Cross z x
    let y := vec3Normalize lib.sqrt lib.eps y
    let n : Mat4 K :=
      ⟨x.x, x.y, x.z, 0,
        y.x, y.y, y.z, 0,
        z.x, z.y, z.z, 0,
        0, 0, 0, 1⟩
    mat4fMulmCopy n r
  else
    ⟨x.x, y.x, z.x, 0,
      x.y, y.y, z.y, 0,
      x.z, y.z, z.z, 0,
      0, 0, 0, 1⟩

/-- The quaternion that the readings stand for. -/
def orientationTarget (north : Int) (up at_ gf : Vec3 K) : Quaternion K :=
  mat4fQuaternion lib.sqrt (orientationMatrix lib north up at_ gf)

/-- How far an update follows the readings. -/
def orientationRate (q Q : Quaternion K) : K :=
  let err := quaternionCompare lib.sqrt q Q
  let t := 1 / 1000 + err * err
  if 4 / 1000 < t then 4 / 1000 else t

/-- What an update with `slerp` makes of the filtered quaternion. -/
def orientationApproach (Q q : Quaternion K) : Quaternion K :=
  quaternionSlerp lib.sqrt lib.acos lib.sin lib.cos lib.eps Q q (orientationRate lib q Q)

def orientationUpdate (self : Orientation K) (slerp : Bool) : Orientation K :=
  if self.aTs = 0 ∨ self.mTs = 0 then self
  else
    let q := orientationTarget lib self.mNorth ⟨self.aAx, self.aAy, self.aAz⟩
      ⟨self.mMx, self.mMy, self.mMz⟩ ⟨self.mGfx, self.mGfy, self.mGfz⟩
    if slerp then { self with Q := orientationApproach lib self.Q q }
    else { self with Q := q }

def orientationReset (self : Orientation K) : Orientation K :=
  { self with
    aTs := 0
    aAx := 0
    aAy := 0
    aAz := 98 / 10
    aRotation := 0
    mTs := 0
    mMx := 0
    mMy := 1
    mMz := 0
    mGfx := 0
    mGfy := 1
    mGfz := 0
    gTs := 0
    gAx := 0
    gAy := 0
    gAz := 0
    Q := quaternionIdentity }

/-- The memory has any contents before. -/
def orientationNew (memory : Orientation K) : Orientation K :=
  orientationReset { memory with mNorth := ccOrientationTrue }

def orientationAccelerometer (self : Orientation K) (ts ax ay az : K) (rotation : Int) :
    Orientation K :=
  let self := if rotation ≠ self.aRotation then orientationReset self else self
  let slerp := !(decide (self.aTs = 0) && decide (0 < self.mTs))
  orientationUpdate lib
    { self with aTs := ts, aAx := ax, aAy := ay, aAz := az, aRotation := rotation } slerp

def orientationMagnetometer (self : Orientation K) (ts mx my mz gfx gfy gfz : K) :
    Orientation K :=
  let slerp := !(decide (self.mTs = 0) && decide (0 < self.aTs))
  orientationUpdate lib
    { self with mTs := ts, mMx := mx, mMy := my, mMz := mz, mGfx := gfx, mGfy := gfy, mGfz := gfz }
    slerp

def quaternionLoadaxisangle (ax ay az angle : K) : Quaternion K :=
  let sin_a := lib.sin (lib.pi / 180 * angle / 2)
  let cos_a := lib.cos (lib.pi / 180 * angle / 2)
  quaternionNormalize lib.sqrt lib.eps (quaternionLoad (ax * sin_a) (ay * sin_a) (az * sin_a) cos_a)

/-- The turn that cc_orientation_gyroscope integrates over `dt`. -/
def orientationTurn (dt ax ay az : K) : Quaternion K :=
  let mag := lib.sqrt (ax * ax + ay * ay + az * az)
  let angle := 180 / lib.pi * mag * dt
  quaternionLoadaxisangle lib ax ay az angle

def orientationGyroscope (self : Orientation K) (ts ax ay az : K) : Orientation K :=
  let self :=
    if 0 < self.aTs ∧ 0 < self.mTs ∧ 0 < self.gTs then
      let q := orientationTurn lib (ts - self.gTs) ax ay az
      { self with Q := quaternionRotateq lib.sqrt lib.eps self.Q q }
    else self
  { self with gTs := ts, gAx := ax, gAy := ay, gAz := az }

def orientationStep (self : Orientation K) : OrientationCall K → Orientation K
  | .north value => { self with mNorth := value }
  | .reset => orientationReset self
  | .accelerometer ts ax ay az rotation => orientationAccelerometer lib self ts ax ay az rotation
  | .magnetometer ts mx my mz gfx gfy gfz =>
    orientationMagnetometer lib self ts mx my mz gfx gfy gfz
  | .gyroscope ts ax ay az => orientationGyroscope lib self ts ax ay az

def orientationRun (self : Orientation K) (calls : List (OrientationCall K)) : Orientation K :=
  calls.foldl (orientationStep lib) self

def orientationMat4f (self : Orientation K) (m : Mat4 K) : Mat4 K :=
  mat4fRotateq m true self.Q

end Model

end LibCC
