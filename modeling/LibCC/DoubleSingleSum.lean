import LibCC.DoubleSingleSteps

/-! When the sum of two floats keeps the error of its first rounding. `a` has 24 bits and no
fraction, so that everything is in units of its last bit. -/

namespace LibCC

section Moves

variable {x a : ℚ}

theorem two_pow_onGrid {g : ℤ} {n : Nat} (h : g ≤ n) : OnGrid g ((2 : ℚ) ^ n) := by
  rw [← zpow_natCast]
  exact OnGrid.zpow h

/-- A grid that has `x` and what `x + a` is rounded to, and is not coarser than the error. -/
theorem exists_grid (hx : IsFloat 24 x) (ha : 0 < a) (hle : a ≤ |x|) :
    ∃ g : ℤ, OnGrid g x ∧ OnGrid g (nearestFloat 24 (x + a)) ∧
      |x + a - nearestFloat 24 (x + a)| ≤ 2 ^ g := by
  rcases le_or_gt 0 x with hpos | hneg
  · rw [abs_of_nonneg hpos] at hle
    have hne : x ≠ 0 := by linarith
    have hlo := le_abs_of_lastExp 24 hne
    have hhi := abs_lt_of_lastExp 24 x
    rw [abs_of_nonneg hpos] at hlo hhi
    refine ⟨lastExp 24 x, hx.onGrid_lastExp, nearestFloat_coarse ?_, ?_⟩
    · rw [abs_of_nonneg (by linarith)]
      linarith
    · have hnear := abs_sub_nearestFloat (p := 24) (e := lastExp 24 x + 1) (x := x + a)
        (by omega) (by
        rw [abs_of_nonneg (by linarith), add_right_comm, zpow_two_add, zpow_one]
        linarith)
      rwa [zpow_two_add, zpow_one, mul_div_cancel_right₀ _ two_ne_zero] at hnear
  · rw [abs_of_neg hneg] at hle
    rcases eq_or_ne (x + a) 0 with hzero | hne
    · refine ⟨lastExp 24 x, hx.onGrid_lastExp, ?_, ?_⟩
      · rw [hzero, nearestFloat_zero]
        exact ⟨0, by simp⟩
      · rw [hzero, nearestFloat_zero, sub_zero, abs_zero]
        exact (zpow_two_pos _).le
    · have hlo := le_abs_of_lastExp 24 hne
      refine ⟨lastExp 24 (x + a), hx.onGrid (hlo.trans ?_), ⟨_, rfl⟩, ?_⟩
      · rw [abs_of_nonpos (by linarith), abs_of_neg hneg]
        linarith
      · have hpos := zpow_two_pos (K := ℚ) (lastExp 24 (x + a))
        have := abs_sub_nearestFloat_lastExp 24 (x + a)
        linarith

/-- Adding `a` does not move `x`, or moves it by one to two times the top bit of `a`. -/
theorem nearestFloat_add_moves (hx : IsFloat 24 x) (ha : 2 ^ 23 ≤ a) (ha' : a < 2 ^ 24)
    (hle : a ≤ |x|) :
    (nearestFloat 24 (x + a) = x ∨ (2 ^ 23 < a → x + 2 ^ 23 ≤ nearestFloat 24 (x + a))) ∧
      x ≤ nearestFloat 24 (x + a) ∧ nearestFloat 24 (x + a) ≤ x + 2 ^ 24 := by
  obtain ⟨g, hxg, hzg, herr⟩ := exists_grid hx (by linarith) hle
  have hlo : x ≤ nearestFloat 24 (x + a) := le_nearestFloat (by omega) hx (by linarith)
  have hnear := nearestFloat_nearest (x := x + a) (by omega) hx
  rw [add_sub_cancel_left, abs_of_pos (by linarith : 0 < a)] at hnear
  generalize nearestFloat 24 (x + a) = z at *
  obtain ⟨herr1, herr2⟩ := abs_le.mp herr
  obtain ⟨hnear1, hnear2⟩ := abs_le.mp hnear
  rcases le_or_gt g 24 with hg | hg
  · have hhi : z ≤ x + 2 ^ 24 := by
      by_contra hgt
      have := (hxg.add (two_pow_onGrid (n := 24) hg)).le_of_lt hzg (not_le.mp hgt)
      linarith
    refine ⟨?_, hlo, hhi⟩
    rcases le_or_gt g 23 with hg' | hg'
    · refine .inr fun hlt => ?_
      by_contra hgt
      have := hzg.le_of_lt (hxg.add (two_pow_onGrid (n := 23) hg')) (not_le.mp hgt)
      linarith
    · obtain rfl : g = 24 := by omega
      rcases hlo.eq_or_lt with heq | hlt
      · exact .inl heq.symm
      · have := hxg.le_of_lt hzg hlt
        norm_num at this ⊢
        exact .inr fun _ => by linarith
  · have hbig := zpow_two_le (K := ℚ) (by omega : (25 : ℤ) ≤ g)
    norm_num at hbig ha' ⊢
    have heq : z = x := hzg.eq_of_abs_lt hxg (by
      rw [abs_of_nonneg (by linarith)]
      linarith)
    subst heq
    exact ⟨.inl rfl, le_rfl, by linarith⟩

theorem nearestFloat_add_stays {g : ℤ} (hx : OnGrid g x) (hlo : 2 ^ (g + 23) ≤ |x + a|)
    (hhi : |x + a| ≤ 2 ^ (g + 24)) (ha : 2 * |a| < 2 ^ g) : nearestFloat 24 (x + a) = x := by
  have hz := nearestFloat_coarse (p := 24) (e := g) (x := x + a) (by
    rwa [show g + (24 : Nat) - 1 = g + 23 by push_cast; ring])
  have hnear := abs_sub_nearestFloat (p := 24) (e := g) (x := x + a) (by omega) hhi
  apply hz.eq_of_abs_lt hx
  have htri := abs_sub_le (nearestFloat 24 (x + a)) (x + a) x
  rw [abs_sub_comm _ (x + a), add_sub_cancel_left] at htri
  linarith

end Moves

section Cases

variable {m n k : ℤ} {b : ℚ}

theorem isFloat_int {x : ℤ} (h : x.natAbs ≤ 16777216) : IsFloat 24 (x : ℚ) := by
  refine isFloat_of_onGrid (e := 0) (by omega) ⟨x, by simp⟩ ?_
  have := natAbs_le_iff.mp h
  norm_num at this ⊢
  exact this

theorem isFloat_even {x : ℤ} (h : x.natAbs ≤ 33554432) (heven : x % 2 = 0) :
    IsFloat 24 (x : ℚ) := by
  refine isFloat_of_onGrid (e := 1) (by omega) ⟨x / 2, ?_⟩ ?_
  · have : (x : ℚ) = ((x / 2 * 2 : ℤ) : ℚ) := by
      congr 1
      omega
    rw [this]
    push_cast
    ring
  · have := natAbs_le_iff.mp h
    norm_num at this ⊢
    exact this

theorem exists_int_of_isFloat {x : ℚ} (h : IsFloat 24 x) (hx : 2 ^ 23 ≤ |x|) : ∃ n : ℤ, x = n := by
  obtain ⟨n, hn⟩ := h.onGrid (e := 0) (by norm_num at hx ⊢; exact hx)
  exact ⟨n, by simpa using hn⟩

theorem exists_half_of_isFloat {x : ℚ} (h : IsFloat 24 x) (hx : 2 ^ 22 ≤ |x|) :
    ∃ n : ℤ, 2 * x = n := by
  obtain ⟨n, hn⟩ := h.onGrid (e := -1) (by norm_num at hx ⊢; exact hx)
  refine ⟨n, ?_⟩
  rw [hn, zpow_neg_one]
  ring

theorem IntRounds.moves {x a z : ℤ} (h : IntRounds (x + a) z) (hx : IsFloat 24 (x : ℚ))
    (ha : 8388608 ≤ a) (ha' : a < 16777216) (hle : a ≤ x.natAbs) :
    (z = x ∨ (8388608 < a → x + 8388608 ≤ z)) ∧ x ≤ z ∧ z ≤ x + 16777216 := by
  have h1 : (2 : ℚ) ^ 23 ≤ a := by norm_num; exact_mod_cast ha
  have h2 : (a : ℚ) < 2 ^ 24 := by norm_num; exact_mod_cast ha'
  have habs : (a : ℚ) ≤ |(x : ℚ)| := by
    rw [← Int.cast_abs, Int.abs_eq_natAbs]
    exact_mod_cast hle
  have hmoves := nearestFloat_add_moves hx h1 h2 habs
  rw [IntRounds, Int.cast_add] at h
  rw [h] at hmoves
  norm_num at hmoves
  exact_mod_cast hmoves

/-- The sum is exact and `b` has no fraction. -/
theorem sumKeepsError_of_int {b : ℤ} (hm : 8388608 ≤ m) (hm' : m < 16777216)
    (hsum : IsFloat 24 ((m : ℚ) + b)) : SumKeepsError m b := by
  obtain ⟨s, e, u, v, w, t, hc⟩ := exists_intChain m b
  rw [hc.keeps_iff]
  have hs : s = m + b := by
    have heq := hc.sum
    rw [IntRounds, Int.cast_add, hsum.nearestFloat_eq] at heq
    exact_mod_cast heq.symm
  apply hc.exact_sum hs
  apply hc.back.step.exact
  rcases le_or_gt m s.natAbs with hle | hgt
  · have hs' : IsFloat 24 (s : ℚ) := by
      rw [hs, Int.cast_add]
      exact hsum
    have := hc.twice.moves hs' hm hm' hle
    omega
  · have := hc.twice.step.near1 (by omega)
    omega

theorem natAbs_lt_of_abs_lt {x : ℤ} (h : |(x : ℚ)| < 2 ^ 24) : x.natAbs < 16777216 := by
  by_contra hge
  have := le_natAbs_iff.mp (not_lt.mp hge)
  norm_num at h this
  linarith

/-- The sum is exact, and `b` has a half. -/
theorem sumKeepsError_of_half {j : ℤ} (hm : 8388608 ≤ m) (hm' : m < 16777216) (hj : 2 * b = j)
    (hodd : j % 2 = 1) (hb : |b| < 2 ^ 23) (hsum : |(m : ℚ) + b| < 2 ^ 23) :
    SumKeepsError m b ↔ m % 2 = 0 := by
  have hb2 : j.natAbs < 16777216 := by
    apply natAbs_lt_of_abs_lt
    rw [← hj, abs_mul, abs_two]
    linarith
  have hs2 : (2 * m + j).natAbs < 16777216 := by
    apply natAbs_lt_of_abs_lt
    push_cast
    rw [← hj, ← mul_add, abs_mul, abs_two]
    linarith
  obtain ⟨s, e, u, v, w, t, hc⟩ := exists_intChain (2 * m) j
  have hkeeps := hc.keeps_iff
  rw [hc.half (by omega) (by omega) (by omega) hodd hb2 hs2, ← hj, Int.cast_mul, Int.cast_ofNat,
    mul_comm, mul_comm 2 b] at hkeeps
  have hscale := sumKeepsError_mul_zpow (a := (m : ℚ)) (b := b) 1
  rw [zpow_one] at hscale
  rw [← hscale, hkeeps]
  omega

/-- A float with a fraction whose sum with an integer of 24 bits is exact has a half. -/
theorem exists_half_of_exact (hm : 8388608 ≤ m) (hb : IsFloat 24 b)
    (hsum : IsFloat 24 ((m : ℚ) + b)) (hint : ¬ ∃ n : ℤ, b = n) :
    ∃ j : ℤ, 2 * b = j ∧ j % 2 = 1 := by
  have hm1 : (2 : ℚ) ^ 23 ≤ m := by norm_num; exact_mod_cast hm
  -- `b` or the sum is not below 2^22
  obtain ⟨j, hj⟩ : ∃ j : ℤ, 2 * b = j := by
    rcases le_or_gt (2 ^ 22) |b| with hge | hlt
    · exact exists_half_of_isFloat hb hge
    · have hlo := (abs_lt.mp hlt).1
      obtain ⟨n, hn⟩ := exists_half_of_isFloat hsum ((by linarith : 2 ^ 22 ≤ (m : ℚ) + b).trans
        (le_abs_self _))
      exact ⟨n - 2 * m, by push_cast; linarith⟩
  refine ⟨j, hj, ?_⟩
  by_contra heven
  apply hint
  have hhalf : (j : ℚ) = ((j / 2 * 2 : ℤ) : ℚ) := by
    congr 1
    omega
  rw [hhalf] at hj
  push_cast at hj
  exact ⟨j / 2, by linarith⟩

theorem sumKeepsError_exact (hm : 8388608 ≤ m) (hm' : m < 16777216) (hb : IsFloat 24 b)
    (hsum : IsFloat 24 ((m : ℚ) + b)) :
    SumKeepsError m b ↔ ¬ (m % 2 = 1 ∧ ∃ j : ℤ, j % 2 = 1 ∧ 2 * b = j) := by
  by_cases hint : ∃ n : ℤ, b = n
  · obtain ⟨n, rfl⟩ := hint
    refine iff_of_true (sumKeepsError_of_int hm hm' hsum) ?_
    rintro ⟨-, j, hj, he⟩
    have : 2 * n = j := by exact_mod_cast he
    omega
  · have hb1 : |b| < 2 ^ 23 := by
      by_contra hge
      exact hint (exists_int_of_isFloat hb (not_lt.mp hge))
    have hs1 : |(m : ℚ) + b| < 2 ^ 23 := by
      by_contra hge
      obtain ⟨n, hn⟩ := exists_int_of_isFloat hsum (not_lt.mp hge)
      exact hint ⟨n - m, by push_cast; linarith⟩
    obtain ⟨j, hj, hodd⟩ := exists_half_of_exact hm hb hsum hint
    rw [sumKeepsError_of_half hm hm' hj hodd hb1 hs1]
    constructor
    · rintro hmod ⟨hm2, -⟩
      omega
    · intro h
      by_contra hmod
      exact h ⟨by omega, j, hodd, hj⟩

theorem sumKeepsError_same (hm : 8388608 ≤ m) (hm' : m < 16777216) (hn : 8388608 ≤ n.natAbs)
    (hn' : n.natAbs < 16777216) (hsum : ¬ IsFloat 24 ((m : ℚ) + n)) :
    SumKeepsError m n ↔ m = 8388608 ∧ n % 4 = 1 := by
  rw [← Int.cast_add] at hsum
  have hpos : 8388608 ≤ n := by
    by_contra hneg
    exact hsum (isFloat_int (by omega))
  have hodd : (m + n) % 2 = 1 := by
    by_contra heven
    exact hsum (isFloat_even (by omega) (by omega))
  obtain ⟨s, e, u, v, w, t, hc⟩ := exists_intChain m n
  rw [hc.keeps_iff]
  exact hc.same_exp hm hm' hpos (by omega) hodd

theorem nearestFloat_near {x : ℚ} {j : Nat} (h : |x| ≤ 2 ^ (j + 24)) :
    |x - nearestFloat 24 x| ≤ 2 ^ j / 2 := by
  have := abs_sub_nearestFloat (p := 24) (e := j) (x := x) (by omega) (by
    rw [← Nat.cast_add, zpow_natCast]
    exact h)
  rwa [zpow_natCast] at this

theorem exists_int_nearestFloat {x : ℚ} (h : 2 ^ 23 ≤ |x|) : ∃ n : ℤ, nearestFloat 24 x = n := by
  obtain ⟨n, hn⟩ := nearestFloat_coarse (p := 24) (e := 0) (x := x) (by norm_num at h ⊢; exact h)
  exact ⟨n, by simpa using hn⟩

/-- A float with a lower exponent is at most half of `a` away from 0. -/
theorem half_le_sum_of_low (hm : 8388608 ≤ m) (hb : IsFloat 24 b) (hlow : |b| < 2 ^ 23)
    (hsum : ¬ IsFloat 24 ((m : ℚ) + b)) : 2 ^ 22 ≤ (m : ℚ) + b := by
  have hm1 : (2 : ℚ) ^ 23 ≤ m := by norm_num; exact_mod_cast hm
  obtain ⟨hlo, hhi⟩ := abs_lt.mp hlow
  by_contra hlt
  rw [not_le] at hlt
  obtain ⟨j, hj⟩ := exists_half_of_isFloat hb (by
    rw [abs_of_neg (by linarith)]
    linarith)
  apply hsum
  refine isFloat_of_onGrid (e := -1) (by omega) ⟨2 * m + j, ?_⟩ ?_
  · rw [zpow_neg_one]
    push_cast
    rw [← hj]
    ring
  · rw [abs_of_nonneg (by linarith)]
    norm_num at hlt ⊢
    linarith

/-- What comes out for a lower exponent has no fraction. -/
theorem exists_int_sumError (hm : 8388608 ≤ m) (hm' : m < 16777216) (hlow : |b| < 2 ^ 23)
    (hge : 2 ^ 22 ≤ (m : ℚ) + b) : ∃ t : ℤ, sumError m b = t := by
  have hm1 : (8388608 : ℚ) ≤ m := by exact_mod_cast hm
  have hm2 : (m : ℚ) < 16777216 := by exact_mod_cast hm'
  obtain ⟨hlo, hhi⟩ := abs_lt.mp hlow
  norm_num at hlo hhi hge
  simp only [sumError]
  have hs := nearestFloat_near (x := (m : ℚ) + b) (j := 1) (by
    rw [abs_of_nonneg (by linarith)]
    norm_num
    linarith)
  generalize nearestFloat 24 ((m : ℚ) + b) = s at *
  obtain ⟨hs1, hs2⟩ := abs_le.mp hs
  norm_num at hs1 hs2
  have he := nearestFloat_near (x := s + m) (j := 2) (by
    rw [abs_of_nonneg (by linarith)]
    norm_num
    linarith)
  generalize nearestFloat 24 (s + m) = e at *
  obtain ⟨he1, he2⟩ := abs_le.mp he
  norm_num at he1 he2
  have hu := nearestFloat_near (x := s - e) (j := 1) (by
    rw [abs_of_nonpos (by linarith)]
    norm_num
    linarith)
  generalize nearestFloat 24 (s - e) = u at *
  obtain ⟨hu1, hu2⟩ := abs_le.mp hu
  norm_num at hu1 hu2
  obtain ⟨v, hv⟩ := exists_int_nearestFloat (x := m - u) (by
    rw [abs_of_nonneg (by linarith)]
    norm_num
    linarith)
  obtain ⟨w, hw⟩ := exists_int_nearestFloat (x := b - e) (by
    rw [abs_of_nonpos (by linarith)]
    norm_num
    linarith)
  obtain ⟨t, ht⟩ := exists_intRounds (w + v)
  refine ⟨t, ?_⟩
  rw [hv, hw]
  exact_mod_cast ht

theorem sumKeepsError_low (hm : 8388608 ≤ m) (hm' : m < 16777216) (hb : IsFloat 24 b)
    (hlow : |b| < 2 ^ 23) (hsum : ¬ IsFloat 24 ((m : ℚ) + b)) : ¬ SumKeepsError m b := by
  intro hkeeps
  have hm1 : (8388608 : ℚ) ≤ m := by exact_mod_cast hm
  have hm2 : (m : ℚ) < 16777216 := by exact_mod_cast hm'
  have hge := half_le_sum_of_low hm hb hlow hsum
  obtain ⟨r, hr⟩ := exists_int_sumError hm hm' hlow hge
  obtain ⟨hlo, hhi⟩ := abs_lt.mp hlow
  norm_num at hlo hhi hge
  have herr : (m : ℚ) + b - nearestFloat 24 ((m : ℚ) + b) = r := hkeeps.symm.trans hr
  have hr0 : r ≠ 0 := by
    rintro rfl
    apply hsum
    rw [Int.cast_zero, sub_eq_zero] at herr
    rw [herr]
    exact nearestFloat_isFloat (by omega) _
  -- an error of a whole unit means that the sum has 25 bits
  have hbig : 16777216 < (m : ℚ) + b := by
    by_contra hle
    have hnear := nearestFloat_near (x := (m : ℚ) + b) (j := 0) (by
      rw [abs_of_nonneg (by linarith)]
      norm_num
      linarith)
    rw [herr, ← Int.cast_abs] at hnear
    have hone : (1 : ℚ) ≤ ((|r| : ℤ) : ℚ) := by exact_mod_cast Int.one_le_abs hr0
    norm_num at hnear
    norm_num at hone
    linarith
  obtain ⟨s, hs⟩ := exists_int_nearestFloat (x := (m : ℚ) + b) (by
    rw [abs_of_nonneg (by linarith)]
    norm_num
    linarith)
  rw [hs] at herr
  obtain ⟨n, rfl⟩ : ∃ n : ℤ, b = n := ⟨r + s - m, by push_cast; linarith⟩
  obtain ⟨s', e, u, v, w, t, hc⟩ := exists_intChain m n
  have hn : n < 8388608 := by exact_mod_cast hhi
  have hmn : 16777216 < m + n := by exact_mod_cast hbig
  have hodd : (m + n) % 2 = 1 := by
    by_contra heven
    apply hsum
    rw [← Int.cast_add]
    exact isFloat_even (by omega) (by omega)
  exact hc.low_exp hm' hn hmn hodd (hc.keeps_iff.mp hkeeps)

end Cases

section High

variable {m n : ℤ} {k : Nat}

/-- `b` is so large that `a` does not move the sum. `k` is by how much its exponent is higher. -/
def SumFar (m n k : ℤ) : Prop :=
  25 ≤ k ∧ ¬ (k = 25 ∧ m * n < 0 ∧ |n| = 2 ^ 23) ∨ k = 24 ∧ 0 < m * n ∧ |n| = 2 ^ 24 - 1

theorem sumFar_iff (hm : 0 < m) : SumFar m n k ↔
    25 ≤ k ∧ ¬ (k = 25 ∧ n = -8388608) ∨ k = 24 ∧ n = 16777215 := by
  have hneg : m * n < 0 ↔ n < 0 := by
    rw [← neg_pos, ← mul_neg, mul_pos_iff_of_pos_left hm, neg_pos]
  unfold SumFar
  rw [mul_pos_iff_of_pos_left hm, hneg, abs_eq (by norm_num), abs_eq (by norm_num)]
  omega

theorem nearestFloat_stays {i : Nat} {c : ℤ} (hi : 25 ≤ i) (hm : 0 < m) (hm' : m < 16777216)
    (hlo : 8388608 * 2 ^ i ≤ |c * 2 ^ i + m|) (hhi : |c * 2 ^ i + m| ≤ 16777216 * 2 ^ i) :
    nearestFloat 24 (((c * 2 ^ i : ℤ) : ℚ) + m) = ((c * 2 ^ i : ℤ) : ℚ) := by
  have hgrid : OnGrid (i : ℤ) ((c * 2 ^ i : ℤ) : ℚ) := ⟨c, by push_cast; rw [zpow_natCast]⟩
  have hpi : (2 : ℚ) ^ 25 ≤ 2 ^ i := pow_le_pow_right₀ (by norm_num) hi
  have hlo' : (8388608 * 2 ^ i : ℚ) ≤ |((c * 2 ^ i : ℤ) : ℚ) + m| := by exact_mod_cast hlo
  have hhi' : |((c * 2 ^ i : ℤ) : ℚ) + m| ≤ 16777216 * 2 ^ i := by exact_mod_cast hhi
  apply nearestFloat_add_stays hgrid
  · rw [zpow_two_add, zpow_natCast, show (2 : ℚ) ^ (23 : ℤ) = 8388608 by norm_num]
    linarith
  · rw [zpow_two_add, zpow_natCast, show (2 : ℚ) ^ (24 : ℤ) = 16777216 by norm_num]
    linarith
  · have hm1 : (0 : ℚ) < m := by exact_mod_cast hm
    have hm2 : (m : ℚ) < 16777216 := by exact_mod_cast hm'
    rw [abs_of_pos hm1, zpow_natCast]
    norm_num at hpi
    linarith

theorem nearestFloat_stays_of_far (hk : 25 ≤ k) (hm : 0 < m) (hm' : m < 16777216)
    (hn : 8388608 ≤ n.natAbs) (hn' : n.natAbs < 16777216) (hfar : ¬ (k = 25 ∧ n = -8388608)) :
    nearestFloat 24 (((n * 2 ^ k : ℤ) : ℚ) + m) = ((n * 2 ^ k : ℤ) : ℚ) := by
  rcases eq_or_ne n (-8388608) with rfl | hne
  · -- a power of two: the grid below it is twice as fine
    obtain ⟨i, rfl⟩ : ∃ i, k = i + 1 := ⟨k - 1, by omega⟩
    have hpi : (2 : ℤ) ^ 25 ≤ 2 ^ i := pow_le_pow_right₀ (by norm_num) (by omega)
    have heq : (-8388608 : ℤ) * 2 ^ (i + 1) = -16777216 * 2 ^ i := by
      rw [pow_succ]
      ring
    rw [heq]
    apply nearestFloat_stays (by omega) hm hm'
    · rw [le_abs]
      omega
    · rw [abs_le]
      omega
  · have hpk : (2 : ℤ) ^ 25 ≤ 2 ^ k := pow_le_pow_right₀ (by norm_num) hk
    have hle : n * 2 ^ k ≤ 16777215 * 2 ^ k := mul_le_mul_of_nonneg_right (by omega) (by omega)
    have hge : -16777215 * 2 ^ k ≤ n * 2 ^ k := mul_le_mul_of_nonneg_right (by omega) (by omega)
    have hout : 8388608 * 2 ^ k ≤ n * 2 ^ k ∨ n * 2 ^ k ≤ -8388609 * 2 ^ k := by
      rcases (by omega : 8388608 ≤ n ∨ n ≤ -8388609) with h | h
      · exact .inl (mul_le_mul_of_nonneg_right h (by omega))
      · exact .inr (mul_le_mul_of_nonneg_right h (by omega))
    apply nearestFloat_stays hk hm hm'
    · rw [le_abs]
      omega
    · rw [abs_le]
      omega

/-- An odd `a` leaves the doubled sum where it was exactly when `b` is far. -/
theorem twice_eq_iff_far {s e : ℤ} (hk : 1 ≤ k) (hm : 8388608 < m) (hm' : m < 16777216)
    (hn : 8388608 ≤ n.natAbs) (hn' : n.natAbs < 16777216) (hs : IntRounds (m + n * 2 ^ k) s)
    (he : IntRounds (s + m) e) (hmoves : n * 2 ^ k ≤ s ∧ s ≤ n * 2 ^ k + 16777216) :
    e = s ↔ SumFar m n k := by
  rw [sumFar_iff (by omega)]
  by_cases hfar : 25 ≤ k ∧ ¬ (k = 25 ∧ n = -8388608)
  · have hstays := nearestFloat_stays_of_far hfar.1 (by omega) hm' hn hn' hfar.2
    rw [← Int.cast_add, add_comm] at hstays
    have hs' : s = n * 2 ^ k := by exact_mod_cast hs.symm.trans hstays
    rw [hs', add_comm] at he
    have he' : e = n * 2 ^ k := by exact_mod_cast he.symm.trans hstays
    exact iff_of_true (he'.trans hs'.symm) (.inl hfar)
  · by_cases hlast : k = 24 ∧ n = 16777215
    · -- the sum is rounded up to a power of two, above which the grid is twice as coarse
      refine iff_of_true ?_ (.inr hlast)
      obtain ⟨rfl, rfl⟩ := hlast
      have hs1 := hs.near (j := 24) (by omega)
      obtain ⟨c, hc⟩ := hs.coarse (j := 24) (by omega)
      have hs2 : s = 281474976710656 := by omega
      have he1 := he.near (j := 25) (by omega)
      obtain ⟨d, hd⟩ := he.coarse (j := 25) (by omega)
      omega
    · refine iff_of_false ?_ (by omega)
      have hpk : (0 : ℤ) < 2 ^ k := by positivity
      have hsmall : (s + m).natAbs ≤ 2 ^ (24 + 24) := by
        rcases (by omega : k ≤ 23 ∨ k = 24 ∨ k = 25) with hk23 | rfl | rfl
        · have hle : (2 : ℤ) ^ k ≤ 2 ^ 23 := pow_le_pow_right₀ (by norm_num) hk23
          have h1 : n * 2 ^ k ≤ 16777215 * 2 ^ k := mul_le_mul_of_nonneg_right (by omega) hpk.le
          have h2 : -16777215 * 2 ^ k ≤ n * 2 ^ k := mul_le_mul_of_nonneg_right (by omega) hpk.le
          omega
        · omega
        · omega
      have hnear := he.near hsmall
      omega

theorem sumKeepsError_high (hk : 1 ≤ k) (hm : 8388608 ≤ m) (hm' : m < 16777216)
    (hn : 8388608 ≤ n.natAbs) (hn' : n.natAbs < 16777216)
    (hsum : ¬ IsFloat 24 ((m : ℚ) + (n * 2 ^ k : ℤ))) :
    SumKeepsError m (n * 2 ^ k : ℤ) ↔ m % 2 = 0 ∨ SumFar m n k := by
  have hfloat : IsFloat 24 ((n * 2 ^ k : ℤ) : ℚ) :=
    ⟨n, k, by rw [Int.abs_eq_natAbs]; omega, by push_cast; rw [zpow_natCast]⟩
  have hpk : (2 : ℤ) ≤ 2 ^ k := by
    have := pow_le_pow_right₀ (by norm_num : (1 : ℤ) ≤ 2) hk
    simpa using this
  have heven : n * 2 ^ k % 2 = 0 := by
    obtain ⟨i, rfl⟩ : ∃ i, k = i + 1 := ⟨k - 1, by omega⟩
    rw [pow_succ, ← mul_assoc]
    omega
  have hbig : 16777216 ≤ n * 2 ^ k ∨ n * 2 ^ k ≤ -16777216 := by
    rcases (by omega : 8388608 ≤ n ∨ n ≤ -8388608) with h | h
    · exact .inl (by nlinarith)
    · exact .inr (by nlinarith)
  have hsum24 : 16777216 < (m + n * 2 ^ k).natAbs := by
    by_contra hle
    apply hsum
    rw [← Int.cast_add]
    exact isFloat_int (not_lt.mp hle)
  obtain ⟨s, e, u, v, w, t, hc⟩ := exists_intChain m (n * 2 ^ k)
  have hs := hc.sum
  rw [add_comm] at hs
  have hmove := hs.moves hfloat hm hm' (by omega)
  have hs24 : 16777216 ≤ s.natAbs := by
    rcases hbig with hpos | hneg
    · omega
    · have hle : ((m + n * 2 ^ k : ℤ) : ℚ) ≤ ((-16777216 : ℤ) : ℚ) := Int.cast_le.mpr (by omega)
      have hs' := nearestFloat_le (by omega) (isFloat_int (x := -16777216) (by omega)) hle
      rw [hc.sum] at hs'
      have := Int.cast_le.mp hs'
      omega
  have hsfloat : IsFloat 24 (s : ℚ) := by
    rw [← hc.sum]
    exact nearestFloat_isFloat (by omega) _
  have hmove' := hc.twice.moves hsfloat hm hm' (by omega)
  rw [hc.keeps_iff, hc.high_exp hm hm' heven hsum24 hmove.1 hmove.2 hmove'.1 hmove'.2]
  rcases Int.emod_two_eq_zero_or_one m with hmod | hmod
  · exact iff_of_true (.inl hmod) (.inl hmod)
  · rw [twice_eq_iff_far hk (by omega) hm' hn hn' hc.sum hc.twice hmove.2]

end High

end LibCC
