import LibCC.Orientation

/-! What the orientation filter is for, without its timestamps: the last reading
of each sensor since the last reset, and an attitude once both have reported.
The filter of cc_orientation.c implements this machine. -/

namespace LibCC

variable {K : Type}

/-- The readings since the last reset. There is an attitude where both sensors have reported. -/
inductive Sensed (K : Type) where
  | nothing
  | up (a : Vec3 K)
  | field (m gf : Vec3 K)
  | both (a m gf : Vec3 K) (Q : Quaternion K)

structure Attitude (K : Type) where
  north : Int
  rotation : Int
  /-- When the gyroscope last reported. -/
  turned : Option K
  sensed : Sensed K

/-- A reading has a time after the start of the clock. -/
def OrientationCall.Timely [Field K] [LinearOrder K] : OrientationCall K → Prop
  | .north _ | .reset => True
  | .accelerometer ts .. | .magnetometer ts .. | .gyroscope ts .. => 0 < ts

variable [Field K] [LinearOrder K]

namespace Sensed

def quaternion : Sensed K → Quaternion K
  | both _ _ _ Q => Q
  | nothing | up _ | field _ _ => quaternionIdentity

section Step

variable (lib : MathLibrary K) (north : Int)

/-- The first attitude is what the readings stand for, and later ones approach it. -/
def accelerometer (a : Vec3 K) : Sensed K → Sensed K
  | nothing | up _ => up a
  | field m gf => both a m gf (orientationTarget lib north a m gf)
  | both _ m gf Q =>
    both a m gf (orientationApproach lib Q (orientationTarget lib north a m gf))

def magnetometer (m gf : Vec3 K) : Sensed K → Sensed K
  | nothing | field _ _ => field m gf
  | up a => both a m gf (orientationTarget lib north a m gf)
  | both a _ _ Q =>
    both a m gf (orientationApproach lib Q (orientationTarget lib north a m gf))

/-- A turn is integrated only into an attitude. -/
def gyroscope (q : Quaternion K) : Sensed K → Sensed K
  | both a m gf Q => both a m gf (quaternionRotateq lib.sqrt lib.eps Q q)
  | s => s

end Step

end Sensed

namespace Attitude

def start : Attitude K := ⟨ccOrientationTrue, 0, none, .nothing⟩

/-- Everything is forgotten but which north is wanted. -/
def reset (s : Attitude K) : Attitude K := { (start : Attitude K) with north := s.north }

variable (lib : MathLibrary K)

def step (s : Attitude K) : OrientationCall K → Attitude K
  | .north value => { s with north := value }
  | .reset => s.reset
  | .accelerometer _ ax ay az rotation =>
    let s := if rotation = s.rotation then s else { s.reset with rotation := rotation }
    { s with sensed := s.sensed.accelerometer lib s.north ⟨ax, ay, az⟩ }
  | .magnetometer _ mx my mz gfx gfy gfz =>
    { s with sensed := s.sensed.magnetometer lib s.north ⟨mx, my, mz⟩ ⟨gfx, gfy, gfz⟩ }
  | .gyroscope ts ax ay az =>
    let sensed := match s.turned with
      | none => s.sensed
      | some before => s.sensed.gyroscope lib (orientationTurn lib (ts - before) ax ay az)
    { s with turned := some ts, sensed := sensed }

def run (s : Attitude K) (calls : List (OrientationCall K)) : Attitude K :=
  calls.foldl (step lib) s

end Attitude

namespace Orientation

/-- A timestamp of zero stands for a sensor that has not reported. -/
def sensed (self : Orientation K) : Sensed K :=
  if self.aTs = 0 then
    if self.mTs = 0 then .nothing
    else .field ⟨self.mMx, self.mMy, self.mMz⟩ ⟨self.mGfx, self.mGfy, self.mGfz⟩
  else if self.mTs = 0 then .up ⟨self.aAx, self.aAy, self.aAz⟩
  else .both ⟨self.aAx, self.aAy, self.aAz⟩ ⟨self.mMx, self.mMy, self.mMz⟩
    ⟨self.mGfx, self.mGfy, self.mGfz⟩ self.Q

def attitude (self : Orientation K) : Attitude K where
  north := self.mNorth
  rotation := self.aRotation
  turned := if self.gTs = 0 then none else some self.gTs
  sensed := self.sensed

/-- Where a sensor is missing the filter holds the identity. -/
structure Clocked (o : Orientation K) : Prop where
  aTs : 0 ≤ o.aTs
  mTs : 0 ≤ o.mTs
  gTs : 0 ≤ o.gTs
  waiting : o.aTs = 0 ∨ o.mTs = 0 → o.Q = quaternionIdentity

theorem Clocked.quaternion {self : Orientation K} (h : self.Clocked) :
    self.Q = self.attitude.sensed.quaternion := by
  unfold attitude sensed
  by_cases ha : self.aTs = 0
  · rw [h.waiting (Or.inl ha)]
    by_cases hm : self.mTs = 0 <;> simp [ha, hm, Sensed.quaternion]
  · by_cases hm : self.mTs = 0
    · rw [h.waiting (Or.inr hm)]
      simp [ha, hm, Sensed.quaternion]
    · simp [ha, hm, Sensed.quaternion]

theorem reset_clocked (self : Orientation K) : (orientationReset self).Clocked where
  aTs := le_refl 0
  mTs := le_refl 0
  gTs := le_refl 0
  waiting _ := rfl

theorem reset_attitude (self : Orientation K) :
    (orientationReset self).attitude = self.attitude.reset := by
  simp [attitude, sensed, orientationReset, Attitude.reset, Attitude.start]

end Orientation

section Steps

variable (lib : MathLibrary K) {o : Orientation K}

theorem orientationUpdate_waits (h : o.aTs = 0 ∨ o.mTs = 0) (slerp : Bool) :
    orientationUpdate lib o slerp = o := if_pos h

theorem orientationUpdate_first (h : ¬(o.aTs = 0 ∨ o.mTs = 0)) :
    orientationUpdate lib o false =
      { o with Q := (orientationTarget lib o.mNorth ⟨o.aAx, o.aAy, o.aAz⟩
        ⟨o.mMx, o.mMy, o.mMz⟩ ⟨o.mGfx, o.mGfy, o.mGfz⟩) } := if_neg h

theorem orientationUpdate_next (h : ¬(o.aTs = 0 ∨ o.mTs = 0)) :
    orientationUpdate lib o true =
      { o with Q := orientationApproach lib o.Q (orientationTarget lib o.mNorth
        ⟨o.aAx, o.aAy, o.aAz⟩ ⟨o.mMx, o.mMy, o.mMz⟩ ⟨o.mGfx, o.mGfy, o.mGfz⟩) } := if_neg h

/-- A reading of the accelerometer where the rotation has not changed. -/
theorem accelerometer_load {ts : K} (ax ay az : K) (rotation : Int) (hts : 0 < ts)
    (h : o.Clocked) :
    let o' := orientationUpdate lib
      { o with aTs := ts, aAx := ax, aAy := ay, aAz := az, aRotation := rotation }
      (!(decide (o.aTs = 0) && decide (0 < o.mTs)))
    o'.Clocked ∧ o'.attitude = { o.attitude with
      rotation := rotation
      sensed := o.sensed.accelerometer lib o.mNorth ⟨ax, ay, az⟩ } := by
  intro o'
  let l : Orientation K :=
    { o with aTs := ts, aAx := ax, aAy := ay, aAz := az, aRotation := rotation }
  have hts0 : ts ≠ 0 := hts.ne'
  by_cases hm : o.mTs = 0
  · have ho' : o' = l := orientationUpdate_waits lib (o := l) (Or.inr hm) _
    rw [ho']
    refine ⟨⟨hts.le, h.mTs, h.gTs, fun _ => h.waiting (Or.inr hm)⟩, ?_⟩
    by_cases ha : o.aTs = 0 <;>
      simp [l, Orientation.attitude, Orientation.sensed, Sensed.accelerometer, hm, ha, hts0]
  · have hmpos : 0 < o.mTs := lt_of_le_of_ne h.mTs (Ne.symm hm)
    have hboth : ¬(ts = 0 ∨ o.mTs = 0) := by simp [hts0, hm]
    by_cases ha : o.aTs = 0
    · have ho' : o' = orientationUpdate lib l false := by simp [o', l, ha, hmpos]
      rw [ho', orientationUpdate_first lib (o := l) hboth]
      refine ⟨⟨hts.le, h.mTs, h.gTs, fun hw => absurd hw hboth⟩, ?_⟩
      simp [l, Orientation.attitude, Orientation.sensed, Sensed.accelerometer, hm, ha, hts0]
    · have ho' : o' = orientationUpdate lib l true := by simp [o', l, ha]
      rw [ho', orientationUpdate_next lib (o := l) hboth]
      refine ⟨⟨hts.le, h.mTs, h.gTs, fun hw => absurd hw hboth⟩, ?_⟩
      simp [l, Orientation.attitude, Orientation.sensed, Sensed.accelerometer, hm, ha, hts0]

theorem accelerometer_refines {ts ax ay az : K} {rotation : Int} (hts : 0 < ts) (h : o.Clocked) :
    (orientationAccelerometer lib o ts ax ay az rotation).Clocked ∧
      (orientationAccelerometer lib o ts ax ay az rotation).attitude =
        o.attitude.step lib (.accelerometer ts ax ay az rotation) := by
  by_cases hrotation : rotation = o.aRotation
  · have hload := accelerometer_load lib ax ay az rotation hts h
    have hstep : o.attitude.step lib (.accelerometer ts ax ay az rotation) = { o.attitude with
        rotation := rotation
        sensed := o.sensed.accelerometer lib o.mNorth ⟨ax, ay, az⟩ } := by
      simp only [Attitude.step, if_pos (show rotation = o.attitude.rotation from hrotation)]
      rw [hrotation]
      rfl
    rw [hstep, orientationAccelerometer, if_neg (not_not.mpr hrotation)]
    exact hload
  · have hload := accelerometer_load lib ax ay az rotation hts
      (Orientation.reset_clocked o)
    have hstep : o.attitude.step lib (.accelerometer ts ax ay az rotation) =
        { (orientationReset o).attitude with
          rotation := rotation
          sensed := (orientationReset o).sensed.accelerometer lib o.mNorth ⟨ax, ay, az⟩ } := by
      simp only [Attitude.step, if_neg (show ¬rotation = o.attitude.rotation from hrotation)]
      rw [← Orientation.reset_attitude]
      rfl
    rw [hstep, orientationAccelerometer, if_pos hrotation]
    exact hload

theorem magnetometer_refines {ts mx my mz gfx gfy gfz : K} (hts : 0 < ts) (h : o.Clocked) :
    (orientationMagnetometer lib o ts mx my mz gfx gfy gfz).Clocked ∧
      (orientationMagnetometer lib o ts mx my mz gfx gfy gfz).attitude =
        o.attitude.step lib (.magnetometer ts mx my mz gfx gfy gfz) := by
  let l : Orientation K :=
    { o with mTs := ts, mMx := mx, mMy := my, mMz := mz, mGfx := gfx, mGfy := gfy, mGfz := gfz }
  have hts0 : ts ≠ 0 := hts.ne'
  by_cases ha : o.aTs = 0
  · have ho' : orientationMagnetometer lib o ts mx my mz gfx gfy gfz = l :=
      orientationUpdate_waits lib (o := l) (Or.inl ha) _
    rw [ho']
    refine ⟨⟨h.aTs, hts.le, h.gTs, fun _ => h.waiting (Or.inl ha)⟩, ?_⟩
    by_cases hm : o.mTs = 0 <;> simp [l, Orientation.attitude, Orientation.sensed,
      Sensed.magnetometer, Attitude.step, hm, ha, hts0]
  · have hapos : 0 < o.aTs := lt_of_le_of_ne h.aTs (Ne.symm ha)
    have hboth : ¬(o.aTs = 0 ∨ ts = 0) := by simp [hts0, ha]
    by_cases hm : o.mTs = 0
    · have ho' : orientationMagnetometer lib o ts mx my mz gfx gfy gfz =
          orientationUpdate lib l false := by simp [orientationMagnetometer, l, hm, hapos]
      rw [ho', orientationUpdate_first lib (o := l) hboth]
      refine ⟨⟨h.aTs, hts.le, h.gTs, fun hw => absurd hw hboth⟩, ?_⟩
      simp [l, Orientation.attitude, Orientation.sensed, Sensed.magnetometer, Attitude.step, hm, ha,
        hts0]
    · have ho' : orientationMagnetometer lib o ts mx my mz gfx gfy gfz =
          orientationUpdate lib l true := by simp [orientationMagnetometer, l, hm]
      rw [ho', orientationUpdate_next lib (o := l) hboth]
      refine ⟨⟨h.aTs, hts.le, h.gTs, fun hw => absurd hw hboth⟩, ?_⟩
      simp [l, Orientation.attitude, Orientation.sensed, Sensed.magnetometer, Attitude.step, hm, ha,
        hts0]

theorem gyroscope_refines {ts ax ay az : K} (hts : 0 < ts) (h : o.Clocked) :
    (orientationGyroscope lib o ts ax ay az).Clocked ∧
      (orientationGyroscope lib o ts ax ay az).attitude =
        o.attitude.step lib (.gyroscope ts ax ay az) := by
  have hts0 : ts ≠ 0 := hts.ne'
  by_cases hready : 0 < o.aTs ∧ 0 < o.mTs ∧ 0 < o.gTs
  · obtain ⟨ha, hm, hg⟩ := hready
    have hboth : ¬(o.aTs = 0 ∨ o.mTs = 0) := by simp [ha.ne', hm.ne']
    rw [orientationGyroscope, if_pos ⟨ha, hm, hg⟩]
    refine ⟨⟨h.aTs, h.mTs, hts.le, fun hw => absurd hw hboth⟩, ?_⟩
    simp [Orientation.attitude, Orientation.sensed, Sensed.gyroscope, Attitude.step, ha.ne', hm.ne',
      hg.ne', hts0]
  · rw [orientationGyroscope, if_neg hready]
    refine ⟨⟨h.aTs, h.mTs, hts.le, h.waiting⟩, ?_⟩
    by_cases ha : o.aTs = 0
    · by_cases hm : o.mTs = 0 <;> by_cases hg : o.gTs = 0 <;>
        simp [Orientation.attitude, Orientation.sensed, Sensed.gyroscope, Attitude.step, ha, hm, hg,
          hts0]
    · by_cases hm : o.mTs = 0
      · by_cases hg : o.gTs = 0 <;>
          simp [Orientation.attitude, Orientation.sensed, Sensed.gyroscope, Attitude.step, ha, hm,
            hg, hts0]
      · have hg : o.gTs = 0 := by
          by_contra hg
          exact hready ⟨lt_of_le_of_ne h.aTs (Ne.symm ha), lt_of_le_of_ne h.mTs (Ne.symm hm),
            lt_of_le_of_ne h.gTs (Ne.symm hg)⟩
        simp [Orientation.attitude, Orientation.sensed, Attitude.step, ha, hm, hg, hts0]

theorem orientationStep_refines {c : OrientationCall K} (hc : c.Timely) (h : o.Clocked) :
    (orientationStep lib o c).Clocked ∧
      (orientationStep lib o c).attitude = o.attitude.step lib c := by
  cases c with
  | north value => exact ⟨⟨h.aTs, h.mTs, h.gTs, h.waiting⟩, rfl⟩
  | reset => exact ⟨Orientation.reset_clocked o, Orientation.reset_attitude o⟩
  | accelerometer ts ax ay az rotation => exact accelerometer_refines lib hc h
  | magnetometer ts mx my mz gfx gfy gfz => exact magnetometer_refines lib hc h
  | gyroscope ts ax ay az => exact gyroscope_refines lib hc h

theorem orientationRun_clocked (h : o.Clocked) {calls : List (OrientationCall K)}
    (hcalls : ∀ c ∈ calls, c.Timely) :
    (orientationRun lib o calls).Clocked ∧
      (orientationRun lib o calls).attitude = o.attitude.run lib calls := by
  induction calls generalizing o with
  | nil => exact ⟨h, rfl⟩
  | cons c calls ih =>
    obtain ⟨hclocked, hattitude⟩ := orientationStep_refines lib (hcalls c (by simp)) h
    obtain ⟨hrun, hruns⟩ := ih hclocked fun c hc => hcalls c (by simp [hc])
    refine ⟨hrun, ?_⟩
    rw [Attitude.run, List.foldl_cons, ← hattitude]
    exact hruns

/-- In every run with times after the start of the clock the filter is at the attitude of the
machine, and holds the identity where that has none. -/
theorem orientation_refines (memory : Orientation K) (calls : List (OrientationCall K))
    (hcalls : ∀ c ∈ calls, c.Timely) :
    let o := orientationRun lib (orientationNew memory) calls
    o.attitude = Attitude.start.run lib calls ∧
      o.Q = (Attitude.start.run lib calls).sensed.quaternion := by
  intro o
  have hstart : (orientationNew memory).attitude = Attitude.start :=
    Orientation.reset_attitude _
  obtain ⟨hclocked, hattitude⟩ :=
    orientationRun_clocked lib (Orientation.reset_clocked _) hcalls
  have hrun : o.attitude = Attitude.start.run lib calls := by rw [← hstart]; exact hattitude
  exact ⟨hrun, hrun ▸ hclocked.quaternion⟩

/-- The first turn is forgotten with the change of the rotation. The second one, from 3 to 5, is
integrated into the attitude that the readings have given at 4. -/
theorem orientation_refines_turned :
    let memory : Orientation ℝ :=
      ⟨3, 3, 3, 3, 3, 3, 3, 3, 3, 3, 3, 3, 3, 3, 3, 3, 3, quaternionIdentity⟩
    let calls : List (OrientationCall ℝ) := [.gyroscope 1 0 0 1, .accelerometer 2 0 0 9 90,
      .gyroscope 3 0 0 1, .magnetometer 4 0 1 0 0 1 0, .gyroscope 5 0 0 2]
    (orientationRun (exactLibrary 1) (orientationNew memory) calls).Q =
      quaternionRotateq Real.sqrt 1
        (orientationTarget (exactLibrary 1) ccOrientationTrue ⟨0, 0, 9⟩ ⟨0, 1, 0⟩ ⟨0, 1, 0⟩)
        (orientationTurn (exactLibrary 1) (5 - 3) 0 0 2) := by
  intro memory calls
  have hcalls : ∀ c ∈ calls, c.Timely := by simp [calls, OrientationCall.Timely]
  rw [(orientation_refines (exactLibrary 1) memory calls hcalls).2]
  rfl

end Steps

end LibCC
