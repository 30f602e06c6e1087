import LibCC.DoubleSingleSplit
import LibCC.RoundingRay

/-! The products of cc_doubleSingle.c. The leading product is written as a difference: the result
is right when the two round to the same float, and when no partial sum is rounded. -/

namespace LibCC

section Model

/-- The constant that floats are split by. -/
def splitConst : Single := .round 24 8193

def doubleSingleMul (a b : Vec2f) : Vec2f :=
  let split := splitConst
  let cona := a.x * split
  let conb := b.x * split
  let a1 := cona - (cona - a.x)
  let b1 := conb - (conb - b.x)
  let a2 := a.x - a1
  let b2 := b.x - b1
  let c11 := a.x - b.x
  let c21 := a2 * b2 + (a2 * b1 + (a1 * b2 + (a1 * b1 - c11)))
  let c2 := a.x * b.y + a.y * b.x
  let t1 := c11 + c2
  let e := t1 + c11
  let t2 := a.y * b.y + ((c2 - e) + (c11 - (t1 - e))) + c21
  let x := t1 + t2
  ⟨x, t2 - (x - t1)⟩

/-- What is written to cH and cL. -/
def doubleSingleMul3 (aH aL bH bL : Vec3f) : Vec3f × Vec3f :=
  let split := splitConst
  let cona : Vec3f := ⟨aH.x * split, aH.y * split, aH.z * split⟩
  let conb : Vec3f := ⟨bH.x * split, bH.y * split, bH.z * split⟩
  let a1 : Vec3f :=
    ⟨cona.x - (cona.x - aH.x), cona.y - (cona.y - aH.y), cona.z - (cona.z - aH.z)⟩
  let b1 : Vec3f :=
    ⟨conb.x - (conb.x - bH.x), conb.y - (conb.y - bH.y), conb.z - (conb.z - bH.z)⟩
  let a2 : Vec3f := ⟨aH.x - a1.x, aH.y - a1.y, aH.z - a1.z⟩
  let b2 : Vec3f := ⟨bH.x - b1.x, bH.y - b1.y, bH.z - b1.z⟩
  let c11 : Vec3f := ⟨aH.x - bH.x, aH.y - bH.y, aH.z - bH.z⟩
  let c21 : Vec3f :=
    ⟨a2.x * b2.x + (a2.x * b1.x + (a1.x * b2.x + (a1.x * b1.x - c11.x))),
     a2.y * b2.y + (a2.y * b1.y + (a1.y * b2.y + (a1.y * b1.y - c11.y))),
     a2.z * b2.z + (a2.z * b1.z + (a1.z * b2.z + (a1.z * b1.z - c11.z)))⟩
  let c2 : Vec3f :=
    ⟨aH.x * bL.x + aL.x * bH.x, aH.y * bL.y + aL.y * bH.y, aH.z * bL.z + aL.z * bH.z⟩
  let t1 : Vec3f := ⟨c11.x + c2.x, c11.y + c2.y, c11.z + c2.z⟩
  let e : Vec3f := ⟨t1.x + c11.x, t1.y + c11.y, t1.z + c11.z⟩
  let t2 : Vec3f :=
    ⟨aL.x * bL.x + ((c2.x - e.x) + (c11.x - (t1.x - e.x))) + c21.x,
     aL.y * bL.y + ((c2.y - e.y) + (c11.y - (t1.y - e.y))) + c21.y,
     aL.z * bL.z + ((c2.z - e.z) + (c11.z - (t1.z - e.z))) + c21.z⟩
  let cH : Vec3f := ⟨t1.x + t2.x, t1.y + t2.y, t1.z + t2.z⟩
  (cH, ⟨t2.x - (cH.x - t1.x), t2.y - (cH.y - t1.y), t2.z - (cH.z - t1.z)⟩)

end Model

section Chain

variable {a a1 a2 b b1 b2 g : ℚ} {e i j k l : ℤ}

/-- c21 for the parts of two numbers and a leading term `g`. -/
def lowProduct (a1 a2 b1 b2 g : ℚ) : ℚ :=
  nearestFloat 24 (nearestFloat 24 (a2 * b2) + nearestFloat 24 (nearestFloat 24 (a2 * b1) +
    nearestFloat 24 (nearestFloat 24 (a1 * b2) + nearestFloat 24 (nearestFloat 24 (a1 * b1) - g))))

/-- None of the sums of the chain is rounded. -/
structure SumsFit (a1 a2 b1 b2 g : ℚ) : Prop where
  first : IsFloat 24 (a1 * b1 - g)
  second : IsFloat 24 (a1 * b2 + (a1 * b1 - g))
  third : IsFloat 24 (a2 * b1 + (a1 * b2 + (a1 * b1 - g)))
  fourth : IsFloat 24 (a2 * b2 + (a2 * b1 + (a1 * b2 + (a1 * b1 - g))))

theorem isFloat_mul_parts {m n : ℤ} (d : ℤ) (hm : |m| ≤ 2 ^ 12) (hn : |n| ≤ 2 ^ 12) :
    IsFloat 24 ((m : ℚ) * n * 2 ^ d) := by
  apply isFloat_of_onGrid (by norm_num) ⟨m * n, by push_cast; rfl⟩
  have hmn : |m * n| ≤ 2 ^ 24 := by
    rw [abs_mul]
    calc |m| * |n| ≤ 2 ^ 12 * 2 ^ 12 := mul_le_mul hm hn (abs_nonneg n) (by norm_num)
      _ = 2 ^ 24 := by norm_num
  have hmn' : |(m : ℚ) * n| ≤ 2 ^ 24 := by exact_mod_cast hmn
  rw [abs_mul_zpow_two, add_comm, zpow_two_add]
  exact mul_le_mul_of_nonneg_right (by exact_mod_cast hmn') (zpow_two_pos d).le

theorem nearestFloat_mul_parts {m n c d : ℤ} {x y : ℚ} (hx : x = m * 2 ^ c) (hy : y = n * 2 ^ d)
    (hm : |m| ≤ 2 ^ 12) (hn : |n| ≤ 2 ^ 12) : nearestFloat 24 (x * y) = x * y := by
  have h := isFloat_mul_parts (c + d) hm hn
  have heq : x * y = (m : ℚ) * n * 2 ^ (c + d) := by
    rw [hx, hy, zpow_two_add]
    ring
  rw [heq]
  exact h.nearestFloat_eq

/-- The products of the parts are floats, and then the chain is exact. -/
theorem lowProduct_eq (ha : SplitAt i a a1 a2) (hb : SplitAt j b b1 b2)
    (h : SumsFit a1 a2 b1 b2 g) : lowProduct a1 a2 b1 b2 g = a * b - g := by
  obtain ⟨m1, hm1, hm1'⟩ := ha.high
  obtain ⟨m2, hm2, hm2'⟩ := ha.low
  obtain ⟨n1, hn1, hn1'⟩ := hb.high
  obtain ⟨n2, hn2, hn2'⟩ := hb.low
  have hpow : (2 : ℤ) ^ 11 ≤ 2 ^ 12 := by norm_num
  unfold lowProduct
  rw [nearestFloat_mul_parts hm1 hn1 (hm1'.trans hpow) (hn1'.trans hpow),
    nearestFloat_mul_parts hm1 hn2 (hm1'.trans hpow) hn2',
    nearestFloat_mul_parts hm2 hn1 hm2' (hn1'.trans hpow), nearestFloat_mul_parts hm2 hn2 hm2' hn2',
    h.first.nearestFloat_eq, h.second.nearestFloat_eq, h.third.nearestFloat_eq,
    h.fourth.nearestFloat_eq, ← ha.sum, ← hb.sum]
  ring

theorem SplitAt.onGrid (h : SplitAt i a a1 a2) (ha : OnGrid k a) : OnGrid k a1 ∧ OnGrid k a2 := by
  obtain ⟨m, hm, -⟩ := h.high
  obtain ⟨n, hn, hn'⟩ := h.low
  have hhigh : OnGrid (i + 13) a1 := ⟨m, hm⟩
  have hlow : a2 = a - a1 := by linarith [h.sum]
  rcases le_or_gt k (i + 13) with hle | hgt
  · rw [hlow]
    exact ⟨hhigh.mono hle, ha.sub (hhigh.mono hle)⟩
  · -- the lower part is too short for a bit of the upper one
    have hgrid : OnGrid (i + 13) a2 := by
      rw [hlow]
      exact (ha.mono hgt.le).sub hhigh
    have hzero : a2 = 0 := by
      apply hgrid.eq_of_abs_lt ⟨0, by simp⟩
      have hn'' : |(n : ℚ)| < 2 ^ 13 := by
        have : |n| < 2 ^ 13 := hn'.trans_lt (by norm_num)
        exact_mod_cast this
      rw [sub_zero, hn, abs_mul_zpow_two, add_comm, zpow_two_add]
      exact mul_lt_mul_of_pos_right hn'' (zpow_two_pos i)
    have hall : a1 = a := by linarith [h.sum]
    rw [hzero, hall]
    exact ⟨ha, ⟨0, by simp⟩⟩

theorem SplitAt.abs_high_le (h : SplitAt i a a1 a2) : |a1| ≤ |a| * (1 + 1 / 2 ^ 11) := by
  have hle : |a - a2| ≤ |a| + |a2| := abs_sub a a2
  have hsmall := h.small
  rw [show a1 = a - a2 by linarith [h.sum]]
  linarith

theorem SplitAt.zero (h : SplitAt i 0 a1 a2) : a1 = 0 ∧ a2 = 0 := by
  have hsmall := h.small
  rw [abs_zero] at hsmall
  have h2 : a2 = 0 := abs_nonpos_iff.mp (by linarith)
  exact ⟨by linarith [h.sum], h2⟩

theorem sumsFit_of_onGrid (ha : SplitAt i a a1 a2) (hb : SplitAt j b b1 b2) (hka : OnGrid k a)
    (hlb : OnGrid l b) (hk : e ≤ k) (hl : e ≤ l) (hkl : e ≤ k + l)
    (hfit : |a| + |b| + 2 * |a * b| ≤ 2 ^ (e + 24)) : SumsFit a1 a2 b1 b2 (a - b) := by
  obtain ⟨hka1, hka2⟩ := ha.onGrid hka
  obtain ⟨hlb1, hlb2⟩ := hb.onGrid hlb
  have hg : OnGrid e (a - b) := (hka.mono hk).sub (hlb.mono hl)
  have h11 : OnGrid e (a1 * b1 - (a - b)) := ((hka1.mul hlb1).mono hkl).sub hg
  have h12 := ((hka1.mul hlb2).mono hkl).add h11
  have h21 := ((hka2.mul hlb1).mono hkl).add h12
  have h22 := ((hka2.mul hlb2).mono hkl).add h21
  have hab : 0 ≤ |a| * |b| := mul_nonneg (abs_nonneg a) (abs_nonneg b)
  rw [abs_mul] at hfit
  have hfloat {x y : ℚ} (hx : OnGrid e x) (hxy : x = y - (a - b)) (hy : |y| ≤ 2 * (|a| * |b|)) :
      IsFloat 24 x := by
    apply isFloat_of_onGrid (by norm_num) hx
    have hdiff : |a - b| ≤ |a| + |b| := abs_sub a b
    have hsub : |y - (a - b)| ≤ |y| + |a - b| := abs_sub y (a - b)
    rw [hxy]
    exact (by linarith : |y - (a - b)| ≤ |a| + |b| + 2 * (|a| * |b|)).trans hfit
  have ha1 := ha.abs_high_le
  have hb1 := hb.abs_high_le
  have ha2 := ha.small
  have hb2 := hb.small
  refine ⟨hfloat h11 rfl ?_, hfloat h12 (y := a1 * b) ?_ ?_,
    hfloat h21 (y := a * b - a2 * b2) ?_ ?_, hfloat h22 (y := a * b) ?_ ?_⟩
  · rw [abs_mul]
    calc |a1| * |b1| ≤ (|a| * (1 + 1 / 2 ^ 11)) * (|b| * (1 + 1 / 2 ^ 11)) :=
          mul_le_mul ha1 hb1 (abs_nonneg b1) (by positivity)
      _ ≤ 2 * (|a| * |b|) := by linarith
  · rw [← hb.sum]
    ring
  · rw [abs_mul]
    calc |a1| * |b| ≤ (|a| * (1 + 1 / 2 ^ 11)) * |b| :=
      mul_le_mul_of_nonneg_right ha1 (abs_nonneg b)
      _ ≤ 2 * (|a| * |b|) := by linarith
  · rw [← ha.sum, ← hb.sum]
    ring
  · have hlow : |a2| * |b2| ≤ |a| * |b| :=
      mul_le_mul (by linarith [abs_nonneg a2]) (by linarith [abs_nonneg b2]) (abs_nonneg b2)
        (abs_nonneg a)
    have hsub : |a * b - a2 * b2| ≤ |a * b| + |a2 * b2| := abs_sub (a * b) (a2 * b2)
    rw [abs_mul, abs_mul] at hsub
    linarith
  · rw [← ha.sum, ← hb.sum]
    ring
  · rw [abs_mul]
    linarith

theorem SplitAt.bounds (h : SplitAt i a a1 a2) :
    OnGrid (i + 13) a1 ∧ OnGrid i a2 ∧ |a1| ≤ 2 ^ 24 * 2 ^ i ∧ |a2| ≤ 2 ^ 12 * 2 ^ i := by
  obtain ⟨m, rfl, hm'⟩ := h.high
  obtain ⟨n, rfl, hn'⟩ := h.low
  have hm'' : |(m : ℚ)| ≤ 2 ^ 11 := by exact_mod_cast hm'
  have hn'' : |(n : ℚ)| ≤ 2 ^ 12 := by exact_mod_cast hn'
  have hpos := (zpow_two_pos (K := ℚ) i).le
  refine ⟨⟨m, rfl⟩, ⟨n, rfl⟩, ?_, ?_⟩
  · have hshift : (2 : ℚ) ^ (i + 13) = 2 ^ 13 * 2 ^ i := by
      rw [zpow_two_add, mul_comm]
      norm_num
    rw [abs_mul_zpow_two, hshift, ← mul_assoc]
    apply mul_le_mul_of_nonneg_right _ hpos
    linarith
  · rw [abs_mul_zpow_two]
    exact mul_le_mul_of_nonneg_right hn'' hpos

theorem abs_mul_le_zpow {x y c d : ℚ} (hx : |x| ≤ c * 2 ^ i) (hy : |y| ≤ d * 2 ^ j) (hc : 0 ≤ c) :
    |x * y| ≤ c * d * 2 ^ (i + j) := by
  have hpos := (zpow_two_pos (K := ℚ) i).le
  rw [abs_mul, zpow_two_add]
  calc |x| * |y| ≤ (c * 2 ^ i) * (d * 2 ^ j) :=
        mul_le_mul hx hy (abs_nonneg y) (mul_nonneg hc hpos)
    _ = c * d * (2 ^ i * 2 ^ j) := by ring

/-- With the right leading term the sums are what is left of the product. -/
theorem sumsFit_of_leading (ha : SplitAt i a a1 a2) (hb : SplitAt j b b1 b2)
    (ha' : 2 ^ 23 * 2 ^ i ≤ |a| ∧ |a| ≤ 2 ^ 24 * 2 ^ i)
    (hb' : 2 ^ 23 * 2 ^ j ≤ |b| ∧ |b| ≤ 2 ^ 24 * 2 ^ j) :
    SumsFit a1 a2 b1 b2 (nearestFloat 24 (a * b)) := by
  obtain ⟨hga1, hga2, hla1, hla2⟩ := ha.bounds
  obtain ⟨hgb1, hgb2, hlb1, hlb2⟩ := hb.bounds
  have hu := zpow_two_pos (K := ℚ) (i + j)
  have hpow (d : ℕ) : (2 : ℚ) ^ (i + j + d) = 2 ^ d * 2 ^ (i + j) := by
    rw [zpow_two_add _ (d : ℤ), zpow_natCast, mul_comm]
  have hproduct : 2 ^ 46 * 2 ^ (i + j) ≤ |a * b| := by
    rw [abs_mul, zpow_two_add]
    calc (2 : ℚ) ^ 46 * (2 ^ i * 2 ^ j) = (2 ^ 23 * 2 ^ i) * (2 ^ 23 * 2 ^ j) := by ring
      _ ≤ |a| * |b| := mul_le_mul ha'.1 hb'.1 (by positivity) (abs_nonneg a)
  have hg : OnGrid (i + j + 23) (nearestFloat 24 (a * b)) := by
    apply nearestFloat_coarse
    rw [show i + j + 23 + ((24 : ℕ) : ℤ) - 1 = i + j + (46 : ℕ) by push_cast; ring, hpow]
    exact hproduct
  have herr : |a * b - nearestFloat 24 (a * b)| ≤ 2 ^ 23 * 2 ^ (i + j) := by
    have hle := abs_sub_nearestFloat (p := 24) (e := i + j + (24 : ℕ)) (by norm_num)
      (x := a * b) (by
        rw [show i + j + ((24 : ℕ) : ℤ) + (24 : ℕ) = i + j + (48 : ℕ) by push_cast; ring, hpow]
        have := abs_mul_le_zpow ha'.2 hb'.2 (by norm_num)
        linarith)
    rw [hpow] at hle
    linarith
  obtain ⟨h12, h12'⟩ := abs_le.mp (abs_mul_le_zpow hla1 hlb2 (by norm_num))
  obtain ⟨h21, h21'⟩ := abs_le.mp (abs_mul_le_zpow hla2 hlb1 (by norm_num))
  obtain ⟨h22, h22'⟩ := abs_le.mp (abs_mul_le_zpow hla2 hlb2 (by norm_num))
  generalize nearestFloat 24 (a * b) = g at hg herr
  rw [← ha.sum, ← hb.sum] at herr
  obtain ⟨herr, herr'⟩ := abs_le.mp herr
  have hfloat {x c : ℚ} {d : ℕ} (hx : OnGrid (i + j + d) x) (hc : c = 2 ^ (d + 24))
      (hle : |x| ≤ c * 2 ^ (i + j)) : IsFloat 24 x := by
    apply isFloat_of_onGrid (by norm_num) hx
    rw [show i + j + (d : ℤ) + (24 : ℕ) = i + j + (d + 24 : ℕ) by push_cast; ring, hpow, ← hc]
    exact hle
  have hs1 : OnGrid (i + j + (23 : ℕ)) (a1 * b1 - g) := ((hga1.mul hgb1).mono (by omega)).sub hg
  have hs2 : OnGrid (i + j + (13 : ℕ)) (a1 * b2 + (a1 * b1 - g)) :=
    ((hga1.mul hgb2).mono (by omega)).add (hs1.mono (by omega))
  have hs3 : OnGrid (i + j + (13 : ℕ)) (a2 * b1 + (a1 * b2 + (a1 * b1 - g))) :=
    ((hga2.mul hgb1).mono (by omega)).add hs2
  have hs4 : OnGrid (i + j + (0 : ℕ)) (a2 * b2 + (a2 * b1 + (a1 * b2 + (a1 * b1 - g)))) :=
    ((hga2.mul hgb2).mono (by omega)).add (hs3.mono (by omega))
  refine ⟨hfloat (c := 2 ^ 47) hs1 rfl ?_, hfloat (c := 2 ^ 37) hs2 rfl ?_,
    hfloat (c := 2 ^ 37) hs3 rfl ?_, hfloat (c := 2 ^ 24) hs4 rfl ?_⟩
  all_goals
    rw [abs_le]
    constructor <;> linarith

end Chain

section Result

variable {a b : Single}

/-- What a product of two floats and its error are to be. -/
def ProductErrorFree (a b x y : Single) : Prop :=
  x.val + y.val = a.val * b.val ∧ x = Binary.round 24 (a.val * b.val)

/-- The result of cc_doubleSingle_mul when both low parts are 0. -/
def MulErrorFree (a b : Single) : Prop :=
  let c := doubleSingleMul ⟨a, 0⟩ ⟨b, 0⟩
  ProductErrorFree a b c.x c.y

def Mul3ErrorFree (aH bH : Vec3f) : Prop :=
  let c := doubleSingleMul3 aH ⟨0, 0, 0⟩ bH ⟨0, 0, 0⟩
  ProductErrorFree aH.x bH.x c.1.x c.2.x ∧ ProductErrorFree aH.y bH.y c.1.y c.2.y ∧
    ProductErrorFree aH.z bH.z c.1.z c.2.z

/-- The difference and the product round to the same float, or the product, the difference and the
two factors fit on one grid of 24 bits. -/
def MulKept (a b : Single) : Prop :=
  nearestFloat 24 (a.val - b.val) = nearestFloat 24 (a.val * b.val) ∨
    ∃ k l e, OnGrid k a.val ∧ OnGrid l b.val ∧ e ≤ k ∧ e ≤ l ∧ e ≤ k + l ∧
      |a.val| + |b.val| + 2 * |a.val * b.val| ≤ 2 ^ (e + 24)

theorem self_mul_zero (a : Single) : a * 0 = 0 := by
  apply Binary.ext
  simp

theorem zero_mul_self (a : Single) : 0 * a = 0 := by
  apply Binary.ext
  simp

theorem zero_add_self (a : Single) : 0 + a = a := by
  apply Binary.ext
  simpa using a.isFloat.nearestFloat_eq

theorem isFloat_double {x : ℚ} (h : IsFloat 24 x) : IsFloat 24 (x + x) := by
  obtain ⟨m, e, hm, rfl⟩ := h
  exact ⟨m, e + 1, hm, by rw [zpow_two_add]; ring⟩

/-- What the chain of the sum makes of a leading term alone. -/
theorem leading_cancels (c : Single) : (0 - (c + c)) + (c - (c - (c + c))) = 0 := by
  have htwo := (isFloat_double c.isFloat).nearestFloat_eq
  apply Binary.ext
  simp only [Binary.add_val, Binary.sub_val, Binary.zero_val]
  rw [htwo, zero_sub, nearestFloat_neg, htwo, show c.val - (c.val + c.val) = -c.val by ring,
    nearestFloat_neg, c.isFloat.nearestFloat_eq, sub_neg_eq_add, htwo, neg_add_cancel,
    nearestFloat_zero]

/-- c21 of cc_doubleSingle_mul. -/
def mulLow (a b : Single) : ℚ :=
  lowProduct (splitHigh a.val) (nearestFloat 24 (a.val - splitHigh a.val)) (splitHigh b.val)
    (nearestFloat 24 (b.val - splitHigh b.val)) (nearestFloat 24 (a.val - b.val))

theorem splitConst_val : splitConst.val = 8193 := by
  have hfloat : IsFloat 24 (8193 : ℚ) := ⟨8193, 0, by norm_num, by norm_num⟩
  exact hfloat.nearestFloat_eq

theorem doubleSingleMul_val (a b : Single) :
    let c := doubleSingleMul ⟨a, 0⟩ ⟨b, 0⟩
    c.x.val = nearestFloat 24 (nearestFloat 24 (a.val - b.val) + mulLow a b) ∧
      c.y.val = nearestFloat 24 (mulLow a b -
        nearestFloat 24 (c.x.val - nearestFloat 24 (a.val - b.val))) := by
  simp only [doubleSingleMul, self_mul_zero, zero_mul_self, Binary.self_add_zero, leading_cancels,
    zero_add_self]
  constructor <;>
    simp only [Binary.add_val, Binary.sub_val, Binary.mul_val, splitConst_val, mulLow, lowProduct,
      splitHigh]

/-- When the chain is exact and the leading term is right or the product a float. -/
theorem mulErrorFree_of_low (hlow : mulLow a b = a.val * b.val - nearestFloat 24 (a.val - b.val))
    (hfloat : IsFloat 24 (mulLow a b))
    (h : nearestFloat 24 (a.val - b.val) = nearestFloat 24 (a.val * b.val) ∨
      IsFloat 24 (a.val * b.val)) : MulErrorFree a b := by
  obtain ⟨hx, hy⟩ := doubleSingleMul_val a b
  have hx' : (doubleSingleMul ⟨a, 0⟩ ⟨b, 0⟩).x.val = nearestFloat 24 (a.val * b.val) := by
    rw [hx, hlow, add_sub_cancel]
  refine ⟨?_, Binary.ext hx'⟩
  rw [hy, hx']
  rcases h with hlead | hproduct
  · rw [← hlead, sub_self, nearestFloat_zero, sub_zero, hfloat.nearestFloat_eq, hlow]
    ring
  · rw [hproduct.nearestFloat_eq, ← hlow, hfloat.nearestFloat_eq, sub_self, nearestFloat_zero,
      add_zero]

theorem val_bounds (a : Single) :
    a.val = 0 ∨ 2 ^ 23 * 2 ^ a.exp ≤ |a.val| ∧ |a.val| ≤ 2 ^ 24 * 2 ^ a.exp := by
  rcases eq_or_ne a.val 0 with hzero | hne
  · exact .inl hzero
  · have hlo := le_abs_of_lastExp 24 hne
    have hhi := (abs_lt_of_lastExp 24 a.val).le
    rw [zpow_two_bits_pred (by norm_num)] at hlo
    rw [zpow_two_bits] at hhi
    exact .inr ⟨hlo, hhi⟩

theorem sumsFit_leading (a b : Single) :
    SumsFit (splitHigh a.val) (nearestFloat 24 (a.val - splitHigh a.val)) (splitHigh b.val)
      (nearestFloat 24 (b.val - splitHigh b.val)) (nearestFloat 24 (a.val * b.val)) := by
  have ha := split_spec a
  have hb := split_spec b
  have hzero : IsFloat 24 (0 : ℚ) := ⟨0, 0, by norm_num, by norm_num⟩
  rcases val_bounds a with ha0 | ha'
  · rw [ha0] at ha ⊢
    obtain ⟨h1, h2⟩ := ha.zero
    rw [h2, h1]
    constructor <;> simpa using hzero
  · rcases val_bounds b with hb0 | hb'
    · rw [hb0] at hb ⊢
      obtain ⟨h1, h2⟩ := hb.zero
      rw [h2, h1]
      constructor <;> simpa using hzero
    · exact sumsFit_of_leading ha hb ha' hb'

theorem mulErrorFree_of_kept (h : MulKept a b) : MulErrorFree a b := by
  have ha := split_spec a
  have hb := split_spec b
  rcases h with hlead | ⟨k, l, e, hk, hl, hek, hel, hekl, hfit⟩
  · have hlow := lowProduct_eq ha hb (sumsFit_leading a b)
    rw [← hlead] at hlow
    apply mulErrorFree_of_low hlow _ (.inl hlead)
    exact nearestFloat_isFloat (by norm_num) _
  · have hdiff : nearestFloat 24 (a.val - b.val) = a.val - b.val := by
      apply nearestFloat_of_onGrid (by norm_num) ((hk.mono hek).sub (hl.mono hel))
      have hsub : |a.val - b.val| ≤ |a.val| + |b.val| := abs_sub a.val b.val
      have hpos := abs_nonneg (a.val * b.val)
      exact (by linarith : |a.val - b.val| ≤ _).trans hfit
    have hproduct : IsFloat 24 (a.val * b.val) := by
      apply isFloat_of_onGrid (by norm_num) ((hk.mul hl).mono hekl)
      have hpos := abs_nonneg (a.val * b.val)
      exact (by linarith [abs_nonneg a.val, abs_nonneg b.val] :
        |a.val * b.val| ≤ |a.val| + |b.val| + 2 * |a.val * b.val|).trans hfit
    have hlow := lowProduct_eq ha hb (sumsFit_of_onGrid ha hb hk hl hek hel hekl hfit)
    rw [← hdiff] at hlow
    apply mulErrorFree_of_low hlow _ (.inr hproduct)
    exact nearestFloat_isFloat (by norm_num) _

theorem mul3ErrorFree_iff (aH bH : Vec3f) :
    Mul3ErrorFree aH bH ↔
      MulErrorFree aH.x bH.x ∧ MulErrorFree aH.y bH.y ∧ MulErrorFree aH.z bH.z := Iff.rfl

theorem doubleSingle_mul_exact (a b : Single) (aH bH : Vec3f) :
    (MulKept a b → MulErrorFree a b) ∧
    (MulKept aH.x bH.x ∧ MulKept aH.y bH.y ∧ MulKept aH.z bH.z → Mul3ErrorFree aH bH) := by
  refine ⟨mulErrorFree_of_kept, fun ⟨hx, hy, hz⟩ => ?_⟩
  rw [mul3ErrorFree_iff]
  exact ⟨mulErrorFree_of_kept hx, mulErrorFree_of_kept hy, mulErrorFree_of_kept hz⟩

/-- Two factors of eleven bits. -/
theorem doubleSingle_mul_exact_short :
    let a : Single := .round 24 2047
    let b : Single := .round 24 2045
    (doubleSingleMul ⟨a, 0⟩ ⟨b, 0⟩).x.val = 4186115 ∧ MulErrorFree a b ∧
      Mul3ErrorFree ⟨a, b, a⟩ ⟨b, a, b⟩ := by
  intro a b
  have ha : a.val = 2047 := by decide +kernel
  have hb : b.val = 2045 := by decide +kernel
  have hab : MulKept a b := by
    refine .inr ⟨0, 0, 0, ⟨2047, ?_⟩, ⟨2045, ?_⟩, le_refl _, le_refl _, le_refl _, ?_⟩
    · rw [ha]; norm_num
    · rw [hb]; norm_num
    · rw [ha, hb]; norm_num
  have hba : MulKept b a := by
    refine .inr ⟨0, 0, 0, ⟨2045, ?_⟩, ⟨2047, ?_⟩, le_refl _, le_refl _, le_refl _, ?_⟩
    · rw [hb]; norm_num
    · rw [ha]; norm_num
    · rw [ha, hb]; norm_num
  obtain ⟨hmul, hmul3⟩ := doubleSingle_mul_exact a b ⟨a, b, a⟩ ⟨b, a, b⟩
  exact ⟨by decide +kernel, hmul hab, hmul3 ⟨hab, hba, hab⟩⟩

/-- The square of 4097 has 25 bits, and the last one is lost. -/
theorem doubleSingle_mul_loses :
    let a : Single := .round 24 4097
    (doubleSingleMul ⟨a, 0⟩ ⟨a, 0⟩).x.val = 16785408 ∧ (doubleSingleMul ⟨a, 0⟩ ⟨a, 0⟩).y.val = 0 ∧
      a.val * a.val = 16785409 ∧ ¬ MulErrorFree a a ∧ ¬ Mul3ErrorFree ⟨a, 0, 0⟩ ⟨a, 0, 0⟩ := by
  intro a
  have hx : (doubleSingleMul ⟨a, 0⟩ ⟨a, 0⟩).x.val = 16785408 := by decide +kernel
  have hy : (doubleSingleMul ⟨a, 0⟩ ⟨a, 0⟩).y.val = 0 := by decide +kernel
  have hproduct : a.val * a.val = 16785409 := by decide +kernel
  have hmul : ¬ MulErrorFree a a := by
    intro h
    have hsum := h.1
    rw [hx, hy, hproduct] at hsum
    norm_num at hsum
  refine ⟨hx, hy, hproduct, hmul, fun h => hmul ?_⟩
  exact h.1

end Result

end LibCC
