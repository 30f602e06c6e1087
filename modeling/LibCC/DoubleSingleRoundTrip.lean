import LibCC.RoundedPair

/-! Doubles as pairs of floats in cc_doubleSingle.c, there and back, over the formats that floats
and doubles really have. -/

namespace LibCC

open FloatFormat

/-- float -/
def binary32 : FloatFormat := ⟨24, -149, 128, by decide, by decide⟩

/-- double -/
def binary64 : FloatFormat := ⟨53, -1074, 1024, by decide, by decide⟩

/-- The finite numbers of a format. -/
structure FiniteFloat (f : FloatFormat) where
  val : ℚ
  has : f.Has val
  below : |val| < 2 ^ f.top

/-- A number of a format, `none` where it is an infinity or no number. -/
def Ieee (f : FloatFormat) : Type := Option (FiniteFloat f)

namespace Ieee

variable {f g : FloatFormat}

def round (f : FloatFormat) (x : ℚ) : Ieee f :=
  if h : |f.nearest x| < 2 ^ f.top then some ⟨f.nearest x, f.nearest_has x, h⟩ else none

/-- A conversion between float and double. -/
def convert (g : FloatFormat) (x : Ieee f) : Ieee g := Option.bind x fun x => round g x.val

def add (x y : Ieee f) : Ieee f :=
  Option.bind x fun x => Option.bind y fun y => round f (x.val + y.val)

def sub (x y : Ieee f) : Ieee f :=
  Option.bind x fun x => Option.bind y fun y => round f (x.val - y.val)

/-- cc_vec2f_t -/
structure Vec2f where
  x : Ieee binary32
  y : Ieee binary32

/-- cc_vec3f_t -/
structure Vec3f where
  x : Ieee binary32
  y : Ieee binary32
  z : Ieee binary32

/-- cc_vec3d_t -/
@[ext] structure Vec3d where
  x : Ieee binary64
  y : Ieee binary64
  z : Ieee binary64

def doubleSingleSet (inp : Ieee binary64) : Vec2f :=
  let x : Ieee binary32 := inp.convert binary32
  ⟨x, (inp.sub (x.convert binary64)).convert binary32⟩

def doubleSingleGet (inp : Vec2f) : Ieee binary64 :=
  (inp.x.convert binary64).add (inp.y.convert binary64)

/-- The result is the pair of `high` and `low`. -/
def doubleSingleSet3 (inp : Vec3d) : Vec3f × Vec3f :=
  let high : Vec3f := ⟨inp.x.convert binary32, inp.y.convert binary32, inp.z.convert binary32⟩
  let low : Vec3f :=
    ⟨(inp.x.sub (high.x.convert binary64)).convert binary32,
      (inp.y.sub (high.y.convert binary64)).convert binary32,
      (inp.z.sub (high.z.convert binary64)).convert binary32⟩
  (high, low)

def doubleSingleGet3 (high low : Vec3f) : Vec3d where
  x := (high.x.convert binary64).add (low.x.convert binary64)
  y := (high.y.convert binary64).add (low.y.convert binary64)
  z := (high.z.convert binary64).add (low.z.convert binary64)

end Ieee

namespace FiniteFloat

variable {f : FloatFormat} {x y : FiniteFloat f}

theorem ext (h : x.val = y.val) : x = y := by
  cases x
  cases y
  simpa using h

end FiniteFloat

section RoundTrip

variable {f : FloatFormat} {x : ℚ}

theorem Ieee.round_some (h : |f.nearest x| < 2 ^ f.top) :
    Ieee.round f x = some ⟨f.nearest x, f.nearest_has x, h⟩ := dif_pos h

theorem Ieee.round_none (h : 2 ^ f.top ≤ |f.nearest x|) : Ieee.round f x = none :=
  dif_neg (not_lt.mpr h)

theorem Ieee.round_has (h : f.Has x) (hx : |x| < 2 ^ f.top) : Ieee.round f x = some ⟨x, h, hx⟩ := by
  rw [Ieee.round_some (by rw [h.nearest_eq]; exact hx)]
  exact congrArg some (FiniteFloat.ext h.nearest_eq)

/-- From here on a conversion to float overflows. -/
def floatLimit : ℚ := 2 ^ 128 - 2 ^ 103

theorem binary32_limit : |binary32.nearest x| < 2 ^ binary32.top ↔ |x| < floatLimit := by
  have hlimit : (2 : ℚ) ^ binary32.top - 2 ^ (binary32.top - binary32.bits) / 2 = floatLimit := by
    norm_num [binary32, floatLimit]
  rw [abs_nearest_lt_top_iff, hlimit]

theorem binary64_below (h : |x| < 2 ^ 129) : |x| < 2 ^ binary64.top := by
  have hle : (2 : ℚ) ^ 129 ≤ 2 ^ (1024 : ℤ) := by
    rw [← zpow_natCast]
    exact zpow_two_le (by norm_num)
  exact h.trans_le hle

theorem binary32_below (h : |x| < 2 ^ binary32.top) : |x| < 2 ^ 128 := by
  have htop : (2 : ℚ) ^ binary32.top = 2 ^ 128 := by norm_num [binary32]
  rwa [htop] at h

/-- A float as a double. -/
theorem Ieee.convert_float (x : FiniteFloat binary32) :
    ∃ y : FiniteFloat binary64, y.val = x.val ∧ Ieee.convert binary64 (some x) = some y := by
  have hwider : binary64.Has x.val := x.has.wider (by decide) (by decide)
  have hbelow : |x.val| < 2 ^ binary64.top := by
    apply binary64_below
    have := binary32_below x.below
    linarith
  exact ⟨⟨x.val, hwider, hbelow⟩, rfl, Ieee.round_has hwider hbelow⟩

variable (d : FiniteFloat binary64)

theorem doubleSingle_rest (h : |d.val| < floatLimit) : ∃ x y : FiniteFloat binary32,
    Ieee.doubleSingleSet (some d) = ⟨some x, some y⟩ ∧ x.val = binary32.nearest d.val ∧
      y.val = binary32.nearest (d.val - binary32.nearest d.val) := by
  have hrest : |d.val - binary32.nearest d.val| ≤ |d.val| := by
    simpa using nearest_nearest (x := d.val) binary32.has_zero
  have hfinite := binary32_limit.mpr h
  have hfinite' := binary32_limit.mpr (hrest.trans_lt h)
  let x : FiniteFloat binary32 := ⟨_, binary32.nearest_has _, hfinite⟩
  refine ⟨x, ⟨_, binary32.nearest_has _, hfinite'⟩, ?_, rfl, rfl⟩
  obtain ⟨x', hx', hconvert⟩ := Ieee.convert_float x
  have hx : Ieee.convert binary32 (some d) = some x := Ieee.round_some hfinite
  have hbelow : |d.val - x'.val| < 2 ^ binary64.top := by
    rw [hx']
    apply binary64_below
    apply (hrest.trans_lt h).trans
    norm_num [floatLimit]
  have hhas : binary64.Has (d.val - x'.val) := by
    rw [hx']
    exact has_rest (by decide) d.has
  have hsub : Ieee.sub (some d) (some x') = some ⟨_, hhas, hbelow⟩ := Ieee.round_has hhas hbelow
  have hy : Ieee.round binary32 (d.val - x'.val) =
      some ⟨_, binary32.nearest_has _, hfinite'⟩ := by
    rw [hx']
    exact Ieee.round_some hfinite'
  have hlow : Ieee.convert binary32 (Ieee.sub (some d) (Ieee.convert binary64 (some x))) =
      some ⟨_, binary32.nearest_has _, hfinite'⟩ := by
    rw [hconvert, hsub]
    exact hy
  show Ieee.Vec2f.mk (Ieee.convert binary32 (some d)) (Ieee.convert binary32 (Ieee.sub (some d)
    (Ieee.convert binary64 (Ieee.convert binary32 (some d))))) = _
  rw [hx, hlow]

theorem doubleSingle_joined (h : |d.val| < floatLimit) : ∃ r : FiniteFloat binary64,
    Ieee.doubleSingleGet (Ieee.doubleSingleSet (some d)) = some r ∧
      r.val = binary32.joined d.val := by
  obtain ⟨x, y, hset, hx, hy⟩ := doubleSingle_rest d h
  obtain ⟨x', hx', hconvert⟩ := Ieee.convert_float x
  obtain ⟨y', hy', hconvert'⟩ := Ieee.convert_float y
  have hsum : x'.val + y'.val = binary32.joined d.val := by
    rw [hx', hy', hx, hy]
    rfl
  have hbelow : |x'.val + y'.val| < 2 ^ binary64.top := by
    apply binary64_below
    have hxb := binary32_below x.below
    have hyb := binary32_below y.below
    rw [hx', hy']
    have := abs_add_le x.val y.val
    linarith
  have hhas : binary64.Has (x'.val + y'.val) := by
    rw [hsum]
    exact has_joined (by decide) (by decide) d.has
  refine ⟨⟨_, hhas, hbelow⟩, ?_, hsum⟩
  rw [hset, Ieee.doubleSingleGet, hconvert, hconvert']
  exact Ieee.round_has hhas hbelow

theorem doubleSingle_overflows (h : floatLimit ≤ |d.val|) :
    Ieee.doubleSingleGet (Ieee.doubleSingleSet (some d)) = none := by
  have hx : 2 ^ binary32.top ≤ |binary32.nearest d.val| := by
    rw [← not_lt, binary32_limit, not_lt]
    exact h
  have hset : (Ieee.doubleSingleSet (some d)).x = none := Ieee.round_none hx
  rw [Ieee.doubleSingleGet, hset]
  rfl

/-- A double below the limit of floats loses at most its last bits on the way through two floats,
or what lies under the last bit of a float, and nothing on any later way. It loses nothing at all
exactly if the rest is a float. From the limit on nothing finite comes back. -/
theorem doubleSingle_roundtrip (v : Ieee.Vec3d) :
    (|d.val| < floatLimit → ∃ r : FiniteFloat binary64,
      Ieee.doubleSingleGet (Ieee.doubleSingleSet (some d)) = some r ∧
      |r.val - d.val| ≤ max (|d.val| / 2 ^ 49) (1 / 2 ^ 150) ∧
      (r = d ↔ binary32.Has (d.val - binary32.nearest d.val)) ∧
      (|r.val| < floatLimit →
        Ieee.doubleSingleGet (Ieee.doubleSingleSet (some r)) = some r)) ∧
    (floatLimit ≤ |d.val| → Ieee.doubleSingleGet (Ieee.doubleSingleSet (some d)) = none) ∧
    Ieee.doubleSingleGet3 (Ieee.doubleSingleSet3 v).1 (Ieee.doubleSingleSet3 v).2 =
      ⟨Ieee.doubleSingleGet (Ieee.doubleSingleSet v.x),
        Ieee.doubleSingleGet (Ieee.doubleSingleSet v.y),
        Ieee.doubleSingleGet (Ieee.doubleSingleSet v.z)⟩ := by
  refine ⟨fun h => ?_, doubleSingle_overflows d, rfl⟩
  obtain ⟨r, hr, hjoined⟩ := doubleSingle_joined d h
  refine ⟨r, hr, ?_, ?_, fun hlimit => ?_⟩
  · have hlost := abs_joined_sub binary32 d.val
    rw [← hjoined] at hlost
    have hlast : (2 : ℚ) ^ binary32.last / 2 = 1 / 2 ^ 150 := by norm_num [binary32]
    rwa [hlast] at hlost
  · rw [← joined_eq_iff, ← hjoined]
    exact ⟨congrArg FiniteFloat.val, FiniteFloat.ext⟩
  · obtain ⟨r', hr', hagain⟩ := doubleSingle_joined r hlimit
    rw [hjoined, joined_joined, ← hjoined] at hagain
    rw [hr', FiniteFloat.ext hagain]

/-- 2 ^ n as a double. -/
def doublePow (n : ℕ) (h : n < 1024) : FiniteFloat binary64 where
  val := (2 ^ n : ℕ)
  has := by
    rw [Nat.cast_pow, Nat.cast_ofNat, ← zpow_natCast]
    exact has_zpow (by simp only [binary64]; omega)
  below := by
    rw [Nat.abs_cast, Nat.cast_pow, Nat.cast_ofNat, ← zpow_natCast]
    exact zpow_lt_zpow_right₀ (by norm_num) (by simp only [binary64]; omega)

/-- 1 comes back as it was, and 2 ^ 200 not at all. -/
theorem doubleSingle_roundtrip_pow :
    Ieee.doubleSingleGet (Ieee.doubleSingleSet (some (doublePow 0 (by decide)))) =
        some (doublePow 0 (by decide)) ∧
      Ieee.doubleSingleGet (Ieee.doubleSingleSet (some (doublePow 200 (by decide)))) = none := by
  obtain ⟨hsmall, -, -⟩ := doubleSingle_roundtrip (doublePow 0 (by decide)) ⟨none, none, none⟩
  obtain ⟨-, hlarge, -⟩ := doubleSingle_roundtrip (doublePow 200 (by decide)) ⟨none, none, none⟩
  constructor
  · obtain ⟨r, hr, -, hexact, -⟩ := hsmall (by norm_num [doublePow, floatLimit])
    have hone : binary32.Has (doublePow 0 (by decide)).val := by
      simpa [doublePow] using has_zpow (K := ℚ) (f := binary32) (e := 0) (by decide)
    have hrest : r = doublePow 0 (by decide) := by
      rw [hexact, hone.nearest_eq, sub_self]
      exact binary32.has_zero
    rw [hr, hrest]
  · apply hlarge
    rw [doublePow, Nat.abs_cast]
    norm_num [floatLimit]

end RoundTrip

end LibCC
