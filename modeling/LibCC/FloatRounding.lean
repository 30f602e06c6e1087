import Mathlib

/-! The rounding functions of cc_float.c over exact rationals. A conversion to int cuts off what
is behind the point. -/

namespace LibCC

/-- Towards zero. -/
def truncate (x : ℚ) : ℤ := if 0 ≤ x then ⌊x⌋ else ⌈x⌉

/-- A number of type int, which has to be in its range. -/
def asInt (n : ℤ) : Option ℤ := if -2 ^ 31 ≤ n ∧ n < 2 ^ 31 then some n else none

def ccCeil (x : ℚ) : Option ℚ := do
  let xi ← asInt (truncate x)
  let next ← asInt (xi + 1)
  return next

def ccFloor (x : ℚ) : Option ℚ := do
  let xi ← asInt (truncate x)
  return xi

def ccRound (x : ℚ) : Option ℚ := do
  let xi ← asInt (truncate (x + 1 / 2))
  return xi

/-- cc_floor gives the greatest integer that is not above `x`. -/
def FloorLaw (x : ℚ) : Prop := ∃ n : ℤ, ccFloor x = some (n : ℚ) ∧ IsGreatest {m : ℤ | m ≤ x} n

def CeilLaw (x : ℚ) : Prop := ∃ n : ℤ, ccCeil x = some (n : ℚ) ∧ IsLeast {m : ℤ | x ≤ m} n

def MirrorLaw (x : ℚ) : Prop := ccCeil x = (ccFloor (-x)).map fun y => -y

/-- cc_round gives an integer that is within 1/2 of `x`, from cc_floor to cc_ceil. -/
def RoundLaw (x : ℚ) : Prop :=
  ∃ n : ℤ, ccRound x = some (n : ℚ) ∧ |x - n| ≤ 1 / 2 ∧
    ∃ lo hi, ccFloor x = some lo ∧ ccCeil x = some hi ∧ lo ≤ n ∧ n ≤ hi

section

variable {x : ℚ}

theorem truncate_neg (x : ℚ) : truncate (-x) = -truncate x := by
  rcases lt_trichotomy x 0 with hx | rfl | hx
  · rw [truncate, if_pos (by linarith), truncate, if_neg (by linarith), Int.floor_neg]
  · rfl
  · rw [truncate, if_neg (by linarith), truncate, if_pos hx.le, Int.ceil_neg]

theorem abs_truncate_le (x : ℚ) : |(truncate x : ℚ)| ≤ |x| := by
  unfold truncate
  split_ifs with hx
  · have hfloor : (0 : ℚ) ≤ ⌊x⌋ := by exact_mod_cast Int.floor_nonneg.mpr hx
    rw [abs_of_nonneg hfloor, abs_of_nonneg hx]
    exact Int.floor_le x
  · have hceil : (⌈x⌉ : ℚ) ≤ 0 := by
      exact_mod_cast Int.ceil_le.mpr (by simpa using (not_le.mp hx).le)
    rw [abs_of_nonpos hceil, abs_of_neg (not_le.mp hx)]
    exact neg_le_neg (Int.le_ceil x)

theorem asInt_of_abs {n : ℤ} (h : |(n : ℚ)| < 2 ^ 31) : asInt n = some n := by
  have hn : |n| < 2 ^ 31 := by exact_mod_cast h
  have := abs_lt.mp hn
  exact if_pos (by omega)

theorem ccFloor_eq (hx : |x| + 1 < 2 ^ 31) : ccFloor x = some (truncate x : ℚ) := by
  have hn := abs_truncate_le x
  rw [ccFloor, asInt_of_abs (by linarith)]
  rfl

theorem ccCeil_eq (hx : |x| + 1 < 2 ^ 31) : ccCeil x = some ((truncate x + 1 : ℤ) : ℚ) := by
  have hn := abs_truncate_le x
  have hnext : |((truncate x + 1 : ℤ) : ℚ)| < 2 ^ 31 := by
    push_cast
    have := abs_add_le (truncate x : ℚ) 1
    rw [abs_one] at this
    linarith
  rw [ccCeil, asInt_of_abs (by linarith), Option.bind_eq_bind, Option.bind_some,
    asInt_of_abs hnext]
  rfl

theorem ccRound_eq (hx : |x| + 1 < 2 ^ 31) :
    ccRound x = some (truncate (x + 1 / 2) : ℚ) := by
  have hn := abs_truncate_le (x + 1 / 2)
  have hadd := abs_add_le x (1 / 2)
  rw [abs_of_pos (by norm_num : (0 : ℚ) < 1 / 2)] at hadd
  rw [ccRound, asInt_of_abs (by linarith)]
  rfl

theorem floor_isGreatest (x : ℚ) : IsGreatest {m : ℤ | m ≤ x} ⌊x⌋ :=
  ⟨Int.floor_le x, fun _ hm => Int.le_floor.mpr hm⟩

theorem ceil_isLeast (x : ℚ) : IsLeast {m : ℤ | x ≤ m} ⌈x⌉ :=
  ⟨Int.le_ceil x, fun _ hm => Int.ceil_le.mpr hm⟩

/-- Below zero the greatest integer is cut off, unless there is nothing to cut off. -/
theorem floorLaw_iff (hx : |x| + 1 < 2 ^ 31) : FloorLaw x ↔ 0 ≤ x ∨ ∃ n : ℤ, x = n := by
  have hlaw : FloorLaw x ↔ truncate x = ⌊x⌋ := by
    constructor
    · rintro ⟨n, hn, hgreat⟩
      rw [ccFloor_eq hx, Option.some.injEq, Int.cast_inj] at hn
      exact hn.trans (hgreat.unique (floor_isGreatest x))
    · intro he
      exact ⟨⌊x⌋, by rw [ccFloor_eq hx, he], floor_isGreatest x⟩
  rw [hlaw, truncate]
  split_ifs with h0
  · simp [h0]
  · constructor
    · intro he
      exact .inr ⟨⌊x⌋, le_antisymm (he ▸ Int.le_ceil x) (Int.floor_le x)⟩
    · rintro (h | ⟨n, rfl⟩)
      · exact absurd h h0
      · simp

theorem ceilLaw_iff (hx : |x| + 1 < 2 ^ 31) : CeilLaw x ↔ 0 < x ∧ ¬ ∃ n : ℤ, x = n := by
  have hlaw : CeilLaw x ↔ truncate x + 1 = ⌈x⌉ := by
    constructor
    · rintro ⟨n, hn, hleast⟩
      rw [ccCeil_eq hx, Option.some.injEq, Int.cast_inj] at hn
      exact hn.trans (hleast.unique (ceil_isLeast x))
    · intro he
      exact ⟨⌈x⌉, by rw [ccCeil_eq hx, he], ceil_isLeast x⟩
  rw [hlaw, truncate]
  split_ifs with h0
  · constructor
    · intro he
      have hint : ¬ ∃ n : ℤ, x = n := by
        rintro ⟨n, rfl⟩
        rw [Int.floor_intCast, Int.ceil_intCast] at he
        omega
      exact ⟨lt_of_le_of_ne h0 fun hz => hint ⟨0, by simpa using hz.symm⟩, hint⟩
    · rintro ⟨-, hint⟩
      have hlt : (⌊x⌋ : ℚ) < x := lt_of_le_of_ne (Int.floor_le x) fun he => hint ⟨⌊x⌋, he.symm⟩
      have hle : ⌈x⌉ ≤ ⌊x⌋ + 1 := Int.ceil_le_floor_add_one x
      have := Int.lt_ceil.mpr hlt
      omega
  · constructor
    · intro he
      omega
    · rintro ⟨hpos, -⟩
      exact absurd hpos.le h0

/-- cc_ceil adds one to what cc_floor mirrored gives. -/
theorem not_mirrorLaw (hx : |x| + 1 < 2 ^ 31) : ¬ MirrorLaw x := by
  have hneg : |-x| + 1 < 2 ^ 31 := by rwa [abs_neg]
  rw [MirrorLaw, ccCeil_eq hx, ccFloor_eq hneg, truncate_neg]
  push_cast
  intro h
  have := Option.some.inj h
  linarith

theorem truncate_mono {y : ℚ} (h : x ≤ y) : truncate x ≤ truncate y := by
  unfold truncate
  split_ifs with hx hy hy
  · exact Int.floor_le_floor h
  · exact absurd (hx.trans h) hy
  · exact (Int.ceil_le.mpr (by simpa using (not_le.mp hx).le)).trans (Int.floor_nonneg.mpr hy)
  · exact Int.ceil_le_ceil h

theorem truncate_half (x : ℚ) :
    truncate x ≤ truncate (x + 1 / 2) ∧ truncate (x + 1 / 2) ≤ truncate x + 1 := by
  refine ⟨truncate_mono (by linarith), ?_⟩
  unfold truncate
  split_ifs with hy hx hx
  · have hlt : ((⌊x + 1 / 2⌋ : ℤ) : ℚ) < ⌊x⌋ + 2 := by
      have := Int.floor_le (x + 1 / 2)
      have := Int.lt_floor_add_one x
      linarith
    have : ⌊x + 1 / 2⌋ < ⌊x⌋ + 2 := by exact_mod_cast hlt
    omega
  · have hle : ⌊x + 1 / 2⌋ ≤ 0 := by
      apply Int.floor_le_iff.mpr
      push_cast
      linarith [not_le.mp hx]
    have hge : -1 < ⌈x⌉ := by
      apply Int.lt_ceil.mpr
      push_cast
      linarith
    omega
  · exact absurd (by linarith : 0 ≤ x + 1 / 2) hy
  · have hlt : ((⌈x + 1 / 2⌉ : ℤ) : ℚ) < ⌈x⌉ + 2 := by
      have := Int.ceil_lt_add_one (x + 1 / 2)
      have := Int.le_ceil x
      linarith
    have : ⌈x + 1 / 2⌉ < ⌈x⌉ + 2 := by exact_mod_cast hlt
    omega

theorem roundLaw_iff (hx : |x| + 1 < 2 ^ 31) :
    RoundLaw x ↔ -1 / 2 ≤ x ∨ ∃ n : ℤ, x + 1 / 2 = n := by
  have hlaw : RoundLaw x ↔ |x - truncate (x + 1 / 2)| ≤ 1 / 2 := by
    constructor
    · rintro ⟨n, hn, habs, -⟩
      rw [ccRound_eq hx, Option.some.injEq, Int.cast_inj] at hn
      rwa [hn]
    · intro habs
      obtain ⟨hlo, hhi⟩ := truncate_half x
      exact ⟨_, ccRound_eq hx, habs, _, _, ccFloor_eq hx, ccCeil_eq hx, by exact_mod_cast hlo,
        by exact_mod_cast hhi⟩
  rw [hlaw, truncate, abs_le]
  split_ifs with h0
  · have hle := Int.floor_le (x + 1 / 2)
    have hlt := Int.lt_floor_add_one (x + 1 / 2)
    constructor
    · exact fun _ => .inl (by linarith)
    · exact fun _ => ⟨by linarith, by linarith⟩
  · have hge := Int.le_ceil (x + 1 / 2)
    have hlt := Int.ceil_lt_add_one (x + 1 / 2)
    constructor
    · rintro ⟨h, -⟩
      exact .inr ⟨⌈x + 1 / 2⌉, by linarith⟩
    · rintro (h | ⟨n, hn⟩)
      · exact absurd (by linarith) h0
      · rw [hn, Int.ceil_intCast]
        exact ⟨by linarith, by linarith⟩

end

/-- When each of the laws holds; the one between cc_ceil and cc_floor never does. -/
theorem rounding_laws (x : ℚ) (hx : |x| + 1 < 2 ^ 31) :
    ¬ (FloorLaw x ∧ CeilLaw x ∧ MirrorLaw x ∧ RoundLaw x) ∧
      (FloorLaw x ↔ 0 ≤ x ∨ ∃ n : ℤ, x = n) ∧
      (CeilLaw x ↔ 0 < x ∧ ¬ ∃ n : ℤ, x = n) ∧
      ¬ MirrorLaw x ∧
      (RoundLaw x ↔ -1 / 2 ≤ x ∨ ∃ n : ℤ, x + 1 / 2 = n) :=
  ⟨fun h => not_mirrorLaw hx h.2.2.1, floorLaw_iff hx, ceilLaw_iff hx, not_mirrorLaw hx,
    roundLaw_iff hx⟩

theorem rounding_laws_one : FloorLaw 1 ∧ ¬ CeilLaw 1 := by
  have h := rounding_laws 1 (by norm_num)
  refine ⟨h.2.1.mpr (.inl (by norm_num)), fun hc => ?_⟩
  exact (h.2.2.1.mp hc).2 ⟨1, by norm_num⟩

/-- cc_floor(-0.5) is 0, cc_ceil(1) is 2 and cc_round(-0.7) is 0. -/
theorem rounding_laws_broken :
    ccFloor (-1 / 2) = some 0 ∧ ¬ FloorLaw (-1 / 2) ∧ ccCeil 1 = some 2 ∧ ¬ CeilLaw 1 ∧
      ¬ MirrorLaw 1 ∧ ccRound (-7 / 10) = some 0 ∧ ¬ RoundLaw (-7 / 10) := by
  have hone : |(1 : ℚ)| + 1 < 2 ^ 31 := by norm_num
  have hhalf : |(-1 / 2 : ℚ)| + 1 < 2 ^ 31 := by
    rw [abs_of_neg (by norm_num)]
    norm_num
  have hround : |(-7 / 10 : ℚ)| + 1 < 2 ^ 31 := by
    rw [abs_of_neg (by norm_num)]
    norm_num
  refine ⟨by decide +kernel, ?_, by decide +kernel, ?_, not_mirrorLaw hone, by decide +kernel, ?_⟩
  · rw [floorLaw_iff hhalf]
    rintro (h | ⟨n, hn⟩)
    · norm_num at h
    · have hn' : (-1 : ℚ) = (2 * n : ℤ) := by
        push_cast
        linarith
      have : (-1 : ℤ) = 2 * n := by exact_mod_cast hn'
      omega
  · rw [ceilLaw_iff hone]
    exact fun h => h.2 ⟨1, by norm_num⟩
  · rw [roundLaw_iff hround]
    rintro (h | ⟨n, hn⟩)
    · norm_num at h
    · have hn' : (-2 : ℚ) = (10 * n : ℤ) := by
        push_cast
        linarith
      have : (-2 : ℤ) = 10 * n := by exact_mod_cast hn'
      omega

end LibCC
