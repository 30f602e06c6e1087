import Mathlib

/-! Rounding to the nearest integer and to the even one of two that are equally near, and on top
of it rounding to the nearest number with `p` bits, at any exponent. The bits of a number are
told from the grid that it is on, the multiples of 2^e. -/

section NearestEven

variable {K : Type*} [Field K] [LinearOrder K] [IsStrictOrderedRing K] [FloorRing K] {q r : K}
  {n : ℤ}

def nearestEven (q : K) : ℤ :=
  if q - ⌊q⌋ < 1 / 2 then ⌊q⌋
  else if 1 / 2 < q - ⌊q⌋ then ⌊q⌋ + 1
  else ⌊q⌋ + ⌊q⌋ % 2

/-- `n` is what `q` is rounded to. -/
def RoundsTo (q : K) (n : ℤ) : Prop := |q - n| ≤ 1 / 2 ∧ (|q - n| = 1 / 2 → n % 2 = 0)

theorem nearestEven_roundsTo (q : K) : RoundsTo q (nearestEven q) := by
  have hlo := Int.floor_le q
  have hhi := Int.lt_floor_add_one q
  unfold nearestEven
  split_ifs with hbelow habove
  · have habs : |q - ⌊q⌋| = q - ⌊q⌋ := abs_of_nonneg (by linarith)
    exact ⟨by linarith, fun h => by linarith⟩
  · have habs : |q - (⌊q⌋ + 1 : ℤ)| = ⌊q⌋ + 1 - q := by
      push_cast
      rw [abs_of_neg (by linarith)]
      ring
    exact ⟨by linarith, fun h => by linarith⟩
  · have hhalf : q - ⌊q⌋ = 1 / 2 := le_antisymm (not_lt.mp habove) (not_lt.mp hbelow)
    refine ⟨?_, fun _ => by omega⟩
    rcases Int.emod_two_eq_zero_or_one ⌊q⌋ with h | h
    · rw [h, add_zero, hhalf]
      norm_num
    · rw [h]
      push_cast
      rw [show q - (⌊q⌋ + 1) = -(1 / 2) by linarith, abs_neg]
      norm_num

omit [FloorRing K] in
/-- No integer is nearer, and one that is equally near is so at a half. -/
theorem RoundsTo.nearest (h : RoundsTo q n) {m : ℤ} (hne : m ≠ n) :
    1 / 2 ≤ |q - m| ∧ |q - n| ≤ |q - m| := by
  have hone : (1 : K) ≤ |(m : K) - n| := by
    exact_mod_cast Int.one_le_abs (sub_ne_zero.mpr hne)
  have htri := abs_sub_le (m : K) q n
  rw [abs_sub_comm (m : K) q] at htri
  have := h.1
  constructor <;> linarith

theorem RoundsTo.unique {m : ℤ} (hm : RoundsTo q m) (hn : RoundsTo q n) : m = n := by
  have hm' := abs_le.mp hm.1
  have hn' := abs_le.mp hn.1
  have hle : (m : K) - n ≤ 1 := by linarith
  have hge : (n : K) - m ≤ 1 := by linarith
  have hle' : m - n ≤ 1 := by exact_mod_cast hle
  have hge' : n - m ≤ 1 := by exact_mod_cast hge
  by_contra hne
  -- then both are at distance 1 / 2, and one of two neighbours is odd
  have hhalf : |q - m| = 1 / 2 ∧ |q - n| = 1 / 2 := by
    rcases (by omega : m = n + 1 ∨ n = m + 1) with rfl | rfl
    · push_cast at hm' ⊢
      have hq : q - n = 1 / 2 := by linarith
      rw [show q - (n + 1) = -(1 / 2) by linarith, hq, abs_neg]
      norm_num
    · push_cast at hn' ⊢
      have hq : q - m = 1 / 2 := by linarith
      rw [show q - (m + 1) = -(1 / 2) by linarith, hq, abs_neg]
      norm_num
  have := hm.2 hhalf.1
  have := hn.2 hhalf.2
  omega

theorem nearestEven_eq_iff : nearestEven q = n ↔ RoundsTo q n :=
  ⟨fun h => h ▸ nearestEven_roundsTo q, fun h => (nearestEven_roundsTo q).unique h⟩

@[simp] theorem nearestEven_intCast (n : ℤ) : nearestEven (n : K) = n :=
  nearestEven_eq_iff.mpr ⟨by simp, by simp⟩

@[simp] theorem nearestEven_zero : nearestEven (0 : K) = 0 := by
  rw [← Int.cast_zero, nearestEven_intCast]

omit [IsStrictOrderedRing K] [FloorRing K] in
theorem RoundsTo.neg (h : RoundsTo q n) : RoundsTo (-q) (-n) := by
  have habs : |-q - (-n : ℤ)| = |q - n| := by
    rw [← abs_neg]
    congr 1
    push_cast
    ring
  unfold RoundsTo
  rw [habs]
  exact ⟨h.1, fun he => by have := h.2 he; omega⟩

@[simp] theorem nearestEven_neg (q : K) : nearestEven (-q) = -nearestEven q :=
  nearestEven_eq_iff.mpr (nearestEven_roundsTo q).neg

theorem nearestEven_le (h : q ≤ n) : nearestEven q ≤ n := by
  have hq := (abs_le.mp (nearestEven_roundsTo q).1).1
  have hlt : (nearestEven q : K) < (n + 1 : ℤ) := by
    push_cast
    linarith
  have := Int.cast_lt.mp hlt
  omega

theorem le_nearestEven (h : (n : K) ≤ q) : n ≤ nearestEven q := by
  have := nearestEven_le (q := -q) (n := -n) (by push_cast; linarith)
  rw [nearestEven_neg] at this
  omega

end NearestEven

section OnGrid

variable {K : Type*} [Field K] {x y : K} {d e : ℤ}

/-- A multiple of 2^e. -/
def OnGrid (e : ℤ) (x : K) : Prop := ∃ n : ℤ, x = n * 2 ^ e

theorem OnGrid.add (hx : OnGrid e x) (hy : OnGrid e y) : OnGrid e (x + y) := by
  obtain ⟨m, rfl⟩ := hx
  obtain ⟨n, rfl⟩ := hy
  exact ⟨m + n, by push_cast; ring⟩

theorem OnGrid.neg (hx : OnGrid e x) : OnGrid e (-x) := by
  obtain ⟨m, rfl⟩ := hx
  exact ⟨-m, by push_cast; ring⟩

theorem OnGrid.sub (hx : OnGrid e x) (hy : OnGrid e y) : OnGrid e (x - y) := by
  rw [sub_eq_add_neg]
  exact hx.add hy.neg

variable [LinearOrder K] [IsStrictOrderedRing K]

theorem zpow_two_pos (e : ℤ) : (0 : K) < 2 ^ e := zpow_pos (by norm_num) e

theorem zpow_two_le (h : d ≤ e) : (2 : K) ^ d ≤ 2 ^ e := zpow_le_zpow_right₀ (by norm_num) h

theorem zpow_two_add (d e : ℤ) : (2 : K) ^ (d + e) = 2 ^ d * 2 ^ e :=
  zpow_add₀ (by norm_num) d e

theorem abs_mul_zpow_two (x : K) (e : ℤ) : |x * 2 ^ e| = |x| * 2 ^ e := by
  have hpos : (0 : K) < 2 ^ e := zpow_two_pos e
  rw [abs_mul, abs_of_pos hpos]

theorem OnGrid.zpow (h : d ≤ e) : OnGrid d ((2 : K) ^ e) := by
  obtain ⟨n, hn⟩ := Int.eq_ofNat_of_zero_le (Int.sub_nonneg_of_le h)
  refine ⟨2 ^ n, ?_⟩
  rw [show e = n + d by omega, zpow_two_add, zpow_natCast]
  push_cast
  rfl

theorem OnGrid.mul (hx : OnGrid d x) (hy : OnGrid e y) : OnGrid (d + e) (x * y) := by
  obtain ⟨m, rfl⟩ := hx
  obtain ⟨n, rfl⟩ := hy
  refine ⟨m * n, ?_⟩
  rw [zpow_two_add]
  push_cast
  ring

theorem OnGrid.mono (hx : OnGrid e x) (h : d ≤ e) : OnGrid d x := by
  obtain ⟨m, rfl⟩ := hx
  obtain ⟨n, hn⟩ := OnGrid.zpow (K := K) h
  exact ⟨m * n, by rw [hn]; push_cast; ring⟩

theorem OnGrid.eq_of_abs_lt (hx : OnGrid e x) (hy : OnGrid e y) (h : |x - y| < 2 ^ e) : x = y := by
  obtain ⟨m, rfl⟩ := hx
  obtain ⟨n, rfl⟩ := hy
  rw [← sub_mul, abs_mul_zpow_two,
    mul_lt_iff_lt_one_left (zpow_two_pos e)] at h
  have hlt : |m - n| < 1 := by exact_mod_cast h
  rw [Int.abs_lt_one_iff.mp hlt |> Int.eq_of_sub_eq_zero]

theorem OnGrid.le_of_lt (hx : OnGrid e x) (hy : OnGrid e y) (h : x < y) : x + 2 ^ e ≤ y := by
  obtain ⟨m, rfl⟩ := hx
  obtain ⟨n, rfl⟩ := hy
  have hlt : m < n := by exact_mod_cast (mul_lt_mul_iff_left₀ (zpow_two_pos e)).mp h
  have hle : (m : K) + 1 ≤ n := by exact_mod_cast hlt
  have := mul_le_mul_of_nonneg_right hle (zpow_two_pos (K := K) e).le
  rwa [add_mul, one_mul] at this

end OnGrid

section NearestFloat

variable {K : Type*} [Field K] [LinearOrder K] [IsStrictOrderedRing K] [FloorRing K] {p : ℕ}
  {x y f : K} {e : ℤ}

def IsFloat (p : ℕ) (x : K) : Prop := ∃ m e : ℤ, |m| < 2 ^ p ∧ x = m * 2 ^ e

/-- The exponent of the last bit of a number with `p` bits. -/
def lastExp (p : ℕ) (x : K) : ℤ := Int.log 2 |x| + 1 - p

def nearestFloat (p : ℕ) (x : K) : K := nearestEven (x / 2 ^ lastExp p x) * 2 ^ lastExp p x

/-- The nearest number on the grid of `2 ^ e`. -/
def gridNearest (e : ℤ) (x : K) : K := nearestEven (x / 2 ^ e) * 2 ^ e

@[simp] theorem nearestFloat_zero (p : ℕ) : nearestFloat p (0 : K) = 0 := by
  simp [nearestFloat]

theorem le_abs_of_lastExp (p : ℕ) (hx : x ≠ 0) : 2 ^ (lastExp p x + p - 1) ≤ |x| := by
  have h := Int.zpow_log_le_self (b := 2) (by omega) (abs_pos.mpr hx)
  rwa [show lastExp p x + p - 1 = Int.log 2 |x| by unfold lastExp; omega]

theorem abs_lt_of_lastExp (p : ℕ) (x : K) : |x| < 2 ^ (lastExp p x + p) := by
  have h := Int.lt_zpow_succ_log_self (b := 2) (by omega) |x|
  rwa [show lastExp p x + p = Int.log 2 |x| + 1 by unfold lastExp; omega]

theorem lastExp_lt (hx : x ≠ 0) (h : |x| < 2 ^ (e + p)) : lastExp p x ≤ e := by
  have hlt := (le_abs_of_lastExp p hx).trans_lt h
  have := (zpow_lt_zpow_iff_right₀ (by norm_num : (1 : K) < 2)).mp hlt
  omega

theorem le_lastExp (h : 2 ^ (e + p - 1) ≤ |x|) : e ≤ lastExp p x := by
  have hlt := h.trans_lt (abs_lt_of_lastExp p x)
  have := (zpow_lt_zpow_iff_right₀ (by norm_num : (1 : K) < 2)).mp hlt
  omega

theorem nearestFloat_of_lastExp (h : OnGrid (lastExp p x) x) : nearestFloat p x = x := by
  obtain ⟨n, hn⟩ := h
  have hdiv : x / 2 ^ lastExp p x = n := (div_eq_iff (zpow_two_pos _).ne').mpr hn
  rw [nearestFloat, hdiv, nearestEven_intCast]
  exact hn.symm

/-- A multiple of 2^e with at most `p` bits above it is not changed. -/
theorem nearestFloat_of_onGrid (hp : 0 < p) (hx : OnGrid e x) (h : |x| ≤ 2 ^ (e + p)) :
    nearestFloat p x = x := by
  rcases eq_or_ne x 0 with rfl | hne
  · exact nearestFloat_zero p
  · apply nearestFloat_of_lastExp
    rcases h.lt_or_eq with hlt | heq
    · exact hx.mono (lastExp_lt hne hlt)
    · -- a power of two is a multiple of the smaller ones
      have hle : lastExp p x ≤ e + p := by
        have := lastExp_lt (e := e + 1) (p := p) hne (by
          rw [heq]
          exact zpow_lt_zpow_right₀ (by norm_num) (by omega))
        omega
      rcases abs_eq (zpow_two_pos _).le |>.mp heq with hx | hx
      · generalize lastExp p x = d at hle
        exact hx ▸ OnGrid.zpow hle
      · generalize lastExp p x = d at hle
        exact hx ▸ (OnGrid.zpow hle).neg

theorem nearestFloat_eq (hp : 0 < p) (hlo : 2 ^ (e + p - 1) ≤ |x|) (hhi : |x| ≤ 2 ^ (e + p)) :
    nearestFloat p x = nearestEven (x / 2 ^ e) * 2 ^ e := by
  have hne : x ≠ 0 := by
    rintro rfl
    exact absurd hlo (by rw [abs_zero]; exact not_le.mpr (zpow_two_pos _))
  rcases hhi.lt_or_eq with hlt | heq
  · have he : lastExp p x = e := le_antisymm (lastExp_lt hne hlt) (le_lastExp hlo)
    rw [nearestFloat, he]
  · have hx : OnGrid e x := by
      rcases abs_eq (zpow_two_pos _).le |>.mp heq with hx | hx
      · exact hx ▸ OnGrid.zpow (by omega)
      · exact hx ▸ (OnGrid.zpow (by omega)).neg
    rw [nearestFloat_of_onGrid hp hx hhi]
    obtain ⟨n, hn⟩ := hx
    rw [(div_eq_iff (zpow_two_pos _).ne').mpr hn, nearestEven_intCast]
    exact hn

theorem nearestFloat_neg (p : ℕ) (x : K) : nearestFloat p (-x) = -nearestFloat p x := by
  have he : lastExp p (-x) = lastExp p x := by rw [lastExp, abs_neg, lastExp]
  rw [nearestFloat, he, neg_div, nearestEven_neg, nearestFloat]
  push_cast
  ring

theorem lastExp_mul_zpow (hx : x ≠ 0) (d : ℤ) : lastExp p (x * 2 ^ d) = lastExp p x + d := by
  have hlo := le_abs_of_lastExp p hx
  have hhi := abs_lt_of_lastExp p x
  apply le_antisymm
  · apply lastExp_lt (mul_ne_zero hx (zpow_two_pos d).ne')
    rw [abs_mul_zpow_two, show lastExp p x + d + p = (lastExp p x + p) + d by omega, zpow_two_add]
    exact mul_lt_mul_of_pos_right hhi (zpow_two_pos d)
  · apply le_lastExp
    rw [abs_mul_zpow_two, show lastExp p x + d + p - 1 = (lastExp p x + p - 1) + d by omega,
      zpow_two_add]
    exact mul_le_mul_of_nonneg_right hlo (zpow_two_pos d).le

theorem nearestFloat_mul_zpow (p : ℕ) (x : K) (d : ℤ) :
    nearestFloat p (x * 2 ^ d) = nearestFloat p x * 2 ^ d := by
  rcases eq_or_ne x 0 with rfl | hx
  · simp
  · have hd := (zpow_two_pos (K := K) d).ne'
    rw [nearestFloat, lastExp_mul_zpow hx, zpow_two_add, mul_div_mul_right _ _ hd, nearestFloat,
      mul_assoc]

/-- From 2^(e + p - 1) on the result is a multiple of 2^e. -/
theorem nearestFloat_coarse (h : 2 ^ (e + p - 1) ≤ |x|) : OnGrid e (nearestFloat p x) :=
  OnGrid.mono ⟨_, rfl⟩ (le_lastExp h)

theorem nearestFloat_onGrid (hx : OnGrid e x) : OnGrid e (nearestFloat p x) := by
  rcases le_or_gt e (lastExp p x) with h | h
  · exact OnGrid.mono ⟨_, rfl⟩ h
  · rw [nearestFloat_of_lastExp (hx.mono h.le)]
    exact hx

theorem abs_sub_nearestFloat_lastExp (p : ℕ) (x : K) :
    |x - nearestFloat p x| ≤ 2 ^ lastExp p x / 2 := by
  have hpos := zpow_two_pos (K := K) (lastExp p x)
  have h := (nearestEven_roundsTo (x / 2 ^ lastExp p x)).1
  have hx : x - nearestEven (x / 2 ^ lastExp p x) * 2 ^ lastExp p x =
      (x / 2 ^ lastExp p x - nearestEven (x / 2 ^ lastExp p x)) * 2 ^ lastExp p x := by
    rw [sub_mul, div_mul_cancel₀ _ hpos.ne']
  have := mul_le_mul_of_nonneg_right h hpos.le
  rw [nearestFloat, hx, abs_mul_zpow_two]
  linarith

theorem abs_sub_nearestFloat (hp : 0 < p) (h : |x| ≤ 2 ^ (e + p)) :
    |x - nearestFloat p x| ≤ 2 ^ e / 2 := by
  have hpos := zpow_two_pos (K := K) e
  rcases eq_or_ne x 0 with rfl | hne
  · rw [nearestFloat_zero, sub_zero, abs_zero]
    linarith
  · rcases le_or_gt (lastExp p x) e with hle | hlt
    · have := zpow_two_le (K := K) hle
      have := abs_sub_nearestFloat_lastExp p x
      linarith
    · -- then |x| is 2^(e + p), which is on the grid
      have hge := (zpow_two_le (by omega : e + p ≤ lastExp p x + p - 1)).trans
        (le_abs_of_lastExp p hne)
      have heq := le_antisymm h hge
      have hx : OnGrid e x := by
        rcases abs_eq (zpow_two_pos _).le |>.mp heq with hx | hx
        · exact hx ▸ OnGrid.zpow (by omega)
        · exact hx ▸ (OnGrid.zpow (by omega)).neg
      rw [nearestFloat_of_onGrid hp hx h, sub_self, abs_zero]
      linarith

/-- What is half way between two multiples of 2^e is rounded to one of 2^(e + 1). -/
theorem nearestFloat_tie (hp : 0 < p) (hlo : 2 ^ (e + p - 1) ≤ |x|) (hhi : |x| ≤ 2 ^ (e + p))
    (h : |x - nearestFloat p x| = 2 ^ e / 2) : OnGrid (e + 1) (nearestFloat p x) := by
  have hpos := zpow_two_pos (K := K) e
  rw [nearestFloat_eq hp hlo hhi] at h ⊢
  have hx : x - nearestEven (x / 2 ^ e) * 2 ^ e =
      (x / 2 ^ e - nearestEven (x / 2 ^ e)) * 2 ^ e := by
    rw [sub_mul, div_mul_cancel₀ _ hpos.ne']
  rw [hx, abs_mul_zpow_two] at h
  have heven := (nearestEven_roundsTo (x / 2 ^ e)).2
    (mul_right_cancel₀ hpos.ne' (h.trans (by ring)))
  refine ⟨nearestEven (x / 2 ^ e) / 2, ?_⟩
  have hhalf : nearestEven (x / 2 ^ e) = nearestEven (x / 2 ^ e) / 2 * 2 := by omega
  conv_lhs => rw [hhalf]
  rw [zpow_two_add, zpow_one]
  push_cast
  ring

/-! The numbers with `p` bits are the ones that are not changed. -/

theorem IsFloat.onGrid_lastExp (h : IsFloat p x) : OnGrid (lastExp p x) x := by
  obtain ⟨m, e, hm, rfl⟩ := h
  rcases eq_or_ne ((m : K) * 2 ^ e) 0 with hzero | hne
  · exact ⟨0, by rw [hzero]; simp⟩
  · refine OnGrid.mono ⟨m, rfl⟩ (lastExp_lt hne ?_)
    have hlt : |(m : K)| < 2 ^ (p : ℤ) := by
      rw [zpow_natCast]
      exact_mod_cast hm
    rw [abs_mul_zpow_two, add_comm, zpow_two_add]
    exact mul_lt_mul_of_pos_right hlt (zpow_two_pos e)

theorem IsFloat.onGrid (h : IsFloat p x) (hx : 2 ^ (e + p - 1) ≤ |x|) : OnGrid e x :=
  h.onGrid_lastExp.mono (le_lastExp hx)

theorem IsFloat.nearestFloat_eq (h : IsFloat p x) : nearestFloat p x = x :=
  nearestFloat_of_lastExp h.onGrid_lastExp

omit [LinearOrder K] [IsStrictOrderedRing K] [FloorRing K] in
theorem IsFloat.neg (h : IsFloat p x) : IsFloat p (-x) := by
  obtain ⟨m, e, hm, rfl⟩ := h
  exact ⟨-m, e, by rwa [abs_neg], by push_cast; ring⟩

theorem isFloat_of_onGrid (hp : 0 < p) (hx : OnGrid e x) (h : |x| ≤ 2 ^ (e + p)) :
    IsFloat p x := by
  obtain ⟨m, rfl⟩ := hx
  have hm : |m| ≤ 2 ^ p := by
    rw [abs_mul_zpow_two, add_comm, zpow_two_add] at h
    have hle := (mul_le_mul_iff_left₀ (zpow_two_pos e)).mp h
    rw [zpow_natCast] at hle
    exact_mod_cast hle
  rcases hm.lt_or_eq with hlt | heq
  · exact ⟨m, e, hlt, rfl⟩
  · -- one bit at the next exponent
    obtain ⟨k, rfl⟩ : ∃ k, p = k + 1 := ⟨p - 1, by omega⟩
    have htwo : m = m / 2 * 2 := by
      rw [pow_succ] at heq
      rcases abs_eq (by positivity) |>.mp heq with h | h <;> omega
    refine ⟨m / 2, e + 1, ?_, ?_⟩
    · have habs : |m| = |m / 2| * 2 := by
        conv_lhs => rw [htwo]
        rw [abs_mul]
        rfl
      have hpos : (0 : ℤ) < 2 ^ k := by positivity
      rw [pow_succ] at heq ⊢
      omega
    · rw [zpow_two_add, zpow_one]
      conv_lhs => rw [htwo]
      push_cast
      ring

theorem nearestFloat_isFloat (hp : 0 < p) (x : K) : IsFloat p (nearestFloat p x) := by
  refine isFloat_of_onGrid hp ⟨_, rfl⟩ (e := lastExp p x) ?_
  have hpos := zpow_two_pos (K := K) (lastExp p x)
  have hlt := (abs_lt_of_lastExp p x).le
  rw [add_comm, zpow_two_add, zpow_natCast] at hlt
  have hq : |x / 2 ^ lastExp p x| ≤ 2 ^ p := by
    rwa [abs_div, abs_of_pos hpos, div_le_iff₀ hpos]
  obtain ⟨hlo, hhi⟩ := abs_le.mp hq
  have hle := nearestEven_le (q := x / 2 ^ lastExp p x) (n := 2 ^ p) (by exact_mod_cast hhi)
  have hge := le_nearestEven (q := x / 2 ^ lastExp p x) (n := -2 ^ p) (by exact_mod_cast hlo)
  have habs : |(nearestEven (x / 2 ^ lastExp p x) : K)| ≤ 2 ^ p := by
    rw [abs_le]
    exact ⟨by exact_mod_cast hge, by exact_mod_cast hle⟩
  rw [add_comm, zpow_two_add, zpow_natCast, nearestFloat, abs_mul_zpow_two]
  exact mul_le_mul_of_nonneg_right habs hpos.le

/-- A number of `p` bits off the grid of `x` lies behind one on the grid. -/
theorem IsFloat.exists_onGrid (hp : 0 < p) (hx : x ≠ 0) (h : IsFloat p f)
    (hf : ¬ OnGrid (lastExp p x) f) : ∃ g, OnGrid (lastExp p x) g ∧ |x - g| < |x - f| := by
  have hsmall : |f| < 2 ^ (lastExp p x + p - 1) := by
    by_contra hge
    exact hf (h.onGrid (not_lt.mp hge))
  have hlarge := le_abs_of_lastExp p hx
  have hgrid : OnGrid (lastExp p x) ((2 : K) ^ (lastExp p x + p - 1)) := OnGrid.zpow (by omega)
  obtain ⟨hlo, hhi⟩ := abs_lt.mp hsmall
  rcases le_abs'.mp hlarge with hneg | hpos
  · refine ⟨_, hgrid.neg, ?_⟩
    rw [abs_of_nonpos (by linarith), abs_of_nonpos (by linarith)]
    linarith
  · refine ⟨_, hgrid, ?_⟩
    rw [abs_of_nonneg (by linarith), abs_of_nonneg (by linarith)]
    linarith

/-- On its grid `x` is rounded to what is nearest, and an equally near one is half a step off. -/
theorem nearestFloat_nearest_onGrid (hf : OnGrid (lastExp p x) f) (hne : f ≠ nearestFloat p x) :
    2 ^ lastExp p x / 2 ≤ |x - f| := by
  have hpos := zpow_two_pos (K := K) (lastExp p x)
  obtain ⟨m, rfl⟩ := hf
  have hm : m ≠ nearestEven (x / 2 ^ lastExp p x) := by
    rintro rfl
    exact hne rfl
  have h := ((nearestEven_roundsTo (x / 2 ^ lastExp p x)).nearest hm).1
  have hx : x - m * 2 ^ lastExp p x = (x / 2 ^ lastExp p x - m) * 2 ^ lastExp p x := by
    rw [sub_mul, div_mul_cancel₀ _ hpos.ne']
  rw [hx, abs_mul_zpow_two]
  have := mul_le_mul_of_nonneg_right h hpos.le
  linarith

theorem nearestFloat_nearest (hp : 0 < p) (hf : IsFloat p f) :
    |x - nearestFloat p x| ≤ |x - f| := by
  have hgrid : ∀ g, OnGrid (lastExp p x) g → |x - nearestFloat p x| ≤ |x - g| := by
    intro g hg
    rcases eq_or_ne g (nearestFloat p x) with rfl | hne
    · exact le_rfl
    · exact (abs_sub_nearestFloat_lastExp p x).trans (nearestFloat_nearest_onGrid hg hne)
  rcases eq_or_ne x 0 with rfl | hx
  · simp
  · by_cases hg : OnGrid (lastExp p x) f
    · exact hgrid f hg
    · obtain ⟨g, hg, hlt⟩ := hf.exists_onGrid hp hx hg
      exact (hgrid g hg).trans hlt.le

theorem le_nearestFloat (hp : 0 < p) (hf : IsFloat p f) (h : f ≤ x) : f ≤ nearestFloat p x := by
  have hnear := nearestFloat_nearest (x := x) hp hf
  by_contra hlt
  rw [not_le] at hlt
  rw [abs_of_nonneg (by linarith), abs_of_nonneg (by linarith)] at hnear
  linarith

theorem nearestFloat_le (hp : 0 < p) (hf : IsFloat p f) (h : x ≤ f) : nearestFloat p x ≤ f := by
  have := le_nearestFloat (x := -x) hp hf.neg (by linarith)
  rw [nearestFloat_neg] at this
  linarith

end NearestFloat
