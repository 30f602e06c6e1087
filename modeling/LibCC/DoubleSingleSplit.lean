import LibCC.DoubleSingleError

/-! The split of a float in cc_doubleSingle_mul: multiplied by 2^13 + 1 and subtracted again, its
upper 11 bits stay, and the lower part has 12 bits and a sign. -/

namespace LibCC

/-- a1 of cc_doubleSingle_mul, and b1. -/
def splitHigh (a : ℚ) : ℚ :=
  let cona := nearestFloat 24 (a * 8193)
  nearestFloat 24 (cona - nearestFloat 24 (cona - a))

theorem splitHigh_neg (a : ℚ) : splitHigh (-a) = -splitHigh a := by
  simp only [splitHigh]
  rw [neg_mul, nearestFloat_neg]
  generalize nearestFloat 24 (a * 8193) = c
  rw [show -c - -a = -(c - a) by ring, nearestFloat_neg]
  generalize nearestFloat 24 (c - a) = d
  rw [show -c - -d = -(c - d) by ring, nearestFloat_neg]

theorem splitHigh_mul_zpow (a : ℚ) (d : ℤ) : splitHigh (a * 2 ^ d) = splitHigh a * 2 ^ d := by
  simp only [splitHigh]
  rw [mul_right_comm, nearestFloat_mul_zpow, ← sub_mul, nearestFloat_mul_zpow, ← sub_mul,
    nearestFloat_mul_zpow]

/-- The two parts of `a`, whose bits start at 2^i. -/
structure SplitAt (i : ℤ) (a a1 a2 : ℚ) : Prop where
  sum : a1 + a2 = a
  high : ∃ n : ℤ, a1 = n * 2 ^ (i + 13) ∧ |n| ≤ 2 ^ 11
  low : ∃ n : ℤ, a2 = n * 2 ^ i ∧ |n| ≤ 2 ^ 12
  small : |a2| * 2 ^ 11 ≤ |a|

theorem SplitAt.neg {i : ℤ} {a a1 a2 : ℚ} (h : SplitAt i a a1 a2) :
    SplitAt i (-a) (-a1) (-a2) := by
  obtain ⟨n, hn, hn'⟩ := h.high
  obtain ⟨k, hk, hk'⟩ := h.low
  refine ⟨by linarith [h.sum], ⟨-n, ?_, by rwa [abs_neg]⟩, ⟨-k, ?_, by rwa [abs_neg]⟩, ?_⟩
  · rw [hn]
    push_cast
    ring
  · rw [hk]
    push_cast
    ring
  · rw [abs_neg, abs_neg]
    exact h.small

theorem SplitAt.mul_zpow {i : ℤ} {a a1 a2 : ℚ} (h : SplitAt i a a1 a2) (d : ℤ) :
    SplitAt (i + d) (a * 2 ^ d) (a1 * 2 ^ d) (a2 * 2 ^ d) := by
  obtain ⟨n, hn, hn'⟩ := h.high
  obtain ⟨k, hk, hk'⟩ := h.low
  refine ⟨by rw [← add_mul, h.sum], ⟨n, ?_, hn'⟩, ⟨k, ?_, hk'⟩, ?_⟩
  · rw [hn, mul_assoc, ← zpow_two_add, add_right_comm]
  · rw [hk, mul_assoc, ← zpow_two_add]
  · rw [abs_mul_zpow_two, abs_mul_zpow_two, mul_right_comm]
    exact mul_le_mul_of_nonneg_right h.small (zpow_two_pos d).le

/-- Both numbers whose difference is the upper part are multiples of 2^13. -/
theorem splitHigh_int {m : ℤ} (hm : 8388608 ≤ m) (hm' : m < 16777216) :
    SplitAt 0 m (splitHigh m) (m - splitHigh m) := by
  obtain ⟨c, hc⟩ := exists_intRounds (m * 8193)
  obtain ⟨d, hd⟩ := exists_intRounds (c - m)
  have hc13 : (2 : ℤ) ^ 13 ∣ c := hc.coarse (by norm_num; omega)
  have hcnear : 2 * (m * 8193 - c).natAbs ≤ 2 ^ 14 := hc.near (by norm_num; omega)
  have hcfirst : m = 8388608 → c = m * 8193 := by
    intro he
    have hfloat : IsFloat 24 ((m * 8193 : ℤ) : ℚ) := ⟨8193, 23, by norm_num, by rw [he]; norm_num⟩
    have hsame := hfloat.nearestFloat_eq
    rw [hc] at hsame
    exact_mod_cast hsame
  have hd13 : (2 : ℤ) ^ 13 ∣ d := hd.coarse (by norm_num; omega)
  have hdnear : 2 * (c - m - d).natAbs ≤ 2 ^ 13 := hd.near (by norm_num; omega)
  obtain ⟨n, hn⟩ : (2 : ℤ) ^ 13 ∣ c - d := hc13.sub hd13
  have hn' : |n| ≤ 2 ^ 11 := by
    norm_num at hn
    rw [abs_le]
    omega
  have hhigh : splitHigh m = ((c - d : ℤ) : ℚ) := by
    have hfloat : IsFloat 24 ((c - d : ℤ) : ℚ) :=
      ⟨n, 13, hn'.trans_lt (by norm_num), by rw [hn]; push_cast; ring⟩
    have hc' : nearestFloat 24 ((m : ℚ) * 8193) = c := by exact_mod_cast hc
    have hd' : nearestFloat 24 ((c : ℚ) - m) = d := by exact_mod_cast hd
    rw [splitHigh, hc', hd', ← Int.cast_sub]
    exact hfloat.nearestFloat_eq
  have hlow : |m - (c - d)| ≤ 2 ^ 12 := by
    norm_num
    rw [abs_le]
    omega
  rw [hhigh]
  refine ⟨by ring, ⟨n, ?_, hn'⟩, ⟨m - (c - d), by push_cast; ring, hlow⟩, ?_⟩
  · rw [hn]
    norm_num
    ring
  · have hsmall : |m - (c - d)| * 2 ^ 11 ≤ |m| := by
      rw [abs_of_pos (by omega : 0 < m)]
      omega
    exact_mod_cast hsmall

theorem split_spec (a : Single) :
    SplitAt a.exp a.val (splitHigh a.val) (nearestFloat 24 (a.val - splitHigh a.val)) := by
  have hsplit : SplitAt a.exp a.val (splitHigh a.val) (a.val - splitHigh a.val) := by
    have hval := a.val_eq
    have hscaled : SplitAt 0 a.sig (splitHigh a.sig) (a.sig - splitHigh a.sig) := by
      rcases a.sig_bounds with h0 | ⟨hlo, hhi⟩
      · rw [h0]
        have hzero : splitHigh ((0 : ℤ) : ℚ) = 0 := by simp [splitHigh]
        rw [hzero]
        exact ⟨by simp, ⟨0, by simp, by simp⟩, ⟨0, by simp, by simp⟩, by simp⟩
      · rcases le_or_gt 0 a.sig with hpos | hneg
        · exact splitHigh_int (by omega) (by omega)
        · have h := (splitHigh_int (m := -a.sig) (by omega) (by omega)).neg
          push_cast at h
          rw [splitHigh_neg, neg_neg, neg_neg, neg_sub_neg, neg_sub] at h
          exact h
    have h := hscaled.mul_zpow a.exp
    rwa [zero_add, ← splitHigh_mul_zpow, sub_mul, ← splitHigh_mul_zpow, ← hval] at h
  have hfloat : IsFloat 24 (a.val - splitHigh a.val) := by
    obtain ⟨n, hn, hn'⟩ := hsplit.low
    exact ⟨n, a.exp, hn'.trans_lt (by norm_num), hn⟩
  rw [hfloat.nearestFloat_eq]
  exact hsplit

end LibCC
