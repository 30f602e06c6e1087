import LibCC.NearestFloat

/-! The sums of cc_doubleSingle.c, over floats whose exponents have no bounds. -/

namespace LibCC

instance neZeroSingle : NeZero 24 := ⟨by decide⟩

/-- The numbers of `p` bits: 24 of them in a float. -/
def Binary (p : Nat) : Type := {x : ℚ // IsFloat p x}

abbrev Single := Binary 24

namespace Binary

variable {p : Nat}

def val (x : Binary p) : ℚ := x.1

theorem ext {x y : Binary p} (h : x.val = y.val) : x = y := Subtype.ext h

theorem isFloat (x : Binary p) : IsFloat p x.val := x.2

def round (p : Nat) [NeZero p] (x : ℚ) : Binary p :=
  ⟨nearestFloat p x, nearestFloat_isFloat (NeZero.pos p) x⟩

variable [NeZero p]

instance : Zero (Binary p) := ⟨round p 0⟩
instance : Add (Binary p) := ⟨fun x y => round p (x.val + y.val)⟩
instance : Sub (Binary p) := ⟨fun x y => round p (x.val - y.val)⟩
instance : Mul (Binary p) := ⟨fun x y => round p (x.val * y.val)⟩

@[simp] theorem round_val (x : ℚ) : (round p x).val = nearestFloat p x := rfl

@[simp] theorem zero_val : (0 : Binary p).val = 0 := by
  exact nearestFloat_zero p

@[simp] theorem add_val (x y : Binary p) : (x + y).val = nearestFloat p (x.val + y.val) := rfl

@[simp] theorem sub_val (x y : Binary p) : (x - y).val = nearestFloat p (x.val - y.val) := rfl

@[simp] theorem mul_val (x y : Binary p) : (x * y).val = nearestFloat p (x.val * y.val) := rfl

@[simp] theorem self_add_zero (x : Binary p) : x + 0 = x := by
  apply ext
  simpa using x.isFloat.nearestFloat_eq

end Binary

/-- cc_vec2f_t -/
@[ext] structure Vec2f where
  x : Single
  y : Single

/-- cc_vec3f_t -/
structure Vec3f where
  x : Single
  y : Single
  z : Single

def doubleSingleAdd (a b : Vec2f) : Vec2f :=
  let t1 := a.x + b.x
  let e := t1 + a.x
  let t2 := ((b.x - e) + (a.x - (t1 - e))) + a.y + b.y
  let x := t1 + t2
  ⟨x, t2 - (x - t1)⟩

/-- What is written to cH and cL. -/
def doubleSingleAdd3 (aH aL bH bL : Vec3f) : Vec3f × Vec3f :=
  let t1 : Vec3f := ⟨aH.x + bH.x, aH.y + bH.y, aH.z + bH.z⟩
  let e : Vec3f := ⟨t1.x + aH.x, t1.y + aH.y, t1.z + aH.z⟩
  let t2 : Vec3f :=
    ⟨((bH.x - e.x) + (aH.x - (t1.x - e.x))) + aL.x + bL.x,
     ((bH.y - e.y) + (aH.y - (t1.y - e.y))) + aL.y + bL.y,
     ((bH.z - e.z) + (aH.z - (t1.z - e.z))) + aL.z + bL.z⟩
  let cH : Vec3f := ⟨t1.x + t2.x, t1.y + t2.y, t1.z + t2.z⟩
  (cH, ⟨t2.x - (cH.x - t1.x), t2.y - (cH.y - t1.y), t2.z - (cH.z - t1.z)⟩)

end LibCC
