import LibCC.DoubleSingleSum

/-! cc_doubleSingle_add for two floats, and cc_doubleSingle_add3 for three pairs of them: when the
second float of the result is the error of the first. -/

namespace LibCC

namespace Binary

variable {p : Nat}

/-- The exponent of the last bit. -/
def exp (x : Binary p) : ℤ := lastExp p x.val

/-- The bits of `x` as an integer. -/
def sig (x : Binary p) : ℤ := ⌊x.val / 2 ^ x.exp⌋

theorem val_eq (x : Binary p) : x.val = x.sig * 2 ^ x.exp := by
  obtain ⟨n, hn⟩ := x.isFloat.onGrid_lastExp
  have hdiv : x.val / 2 ^ x.exp = n := (div_eq_iff (zpow_two_pos _).ne').mpr hn
  rw [sig, hdiv, Int.floor_intCast]
  exact hn

theorem sig_bounds (x : Single) :
    x.sig = 0 ∨ 8388608 ≤ x.sig.natAbs ∧ x.sig.natAbs < 16777216 := by
  rcases eq_or_ne x.val 0 with hzero | hne
  · left
    rw [sig, hzero, zero_div, Int.floor_zero]
  · right
    have hlo := le_abs_of_lastExp 24 hne
    have hhi := abs_lt_of_lastExp 24 x.val
    have hpos := zpow_two_pos (K := ℚ) x.exp
    have habs : |x.val| = ((x.sig.natAbs : Nat) : ℚ) * 2 ^ x.exp := by
      conv_lhs => rw [x.val_eq]
      rw [abs_mul_zpow_two, ← Int.cast_abs, Int.abs_eq_natAbs, Int.cast_natCast]
    have hexp : lastExp 24 x.val = x.exp := rfl
    rw [habs, hexp, show x.exp + (24 : Nat) - 1 = (23 : Nat) + x.exp by push_cast; ring,
      zpow_two_add, mul_le_mul_iff_left₀ hpos, zpow_natCast] at hlo
    rw [habs, hexp, add_comm, zpow_two_add, mul_lt_mul_iff_left₀ hpos, zpow_natCast] at hhi
    have hlo' : ((8388608 : Nat) : ℚ) ≤ (x.sig.natAbs : Nat) := le_trans (by norm_num) hlo
    have hhi' : ((x.sig.natAbs : Nat) : ℚ) < (16777216 : Nat) := lt_of_lt_of_le hhi (by norm_num)
    exact ⟨Nat.cast_le.mp hlo', Nat.cast_lt.mp hhi'⟩

end Binary

/-- When the sum of `m` and n * 2^k keeps its error, for `m` and `n` of 24 bits or 0: if it is
exact, then not when `m` is odd and n * 2^k an odd half; if it is not, then for the same exponent
when m is ±2^23 and n of the form ±(4 * i + 1), and for a higher exponent of the second when `m`
is even or the second far away. -/
def SumKept (m n k : ℤ) : Prop :=
  (IsFloat 24 (m + n * 2 ^ k : ℚ) →
    ¬ (m % 2 = 1 ∧ ∃ j : ℤ, j % 2 = 1 ∧ 2 * (n * 2 ^ k) = (j : ℚ))) ∧
  (¬ IsFloat 24 (m + n * 2 ^ k : ℚ) →
    k = 0 ∧ |m| = 2 ^ 23 ∧ |n| % 4 = 1 ∨ 0 < k ∧ (m % 2 = 0 ∨ SumFar m n k))

section Kept

variable {m n k : ℤ}

theorem sumKept_neg : SumKept (-m) (-n) k ↔ SumKept m n k := by
  have hfloat : IsFloat 24 (((-m : ℤ) : ℚ) + ((-n : ℤ) : ℚ) * 2 ^ k) ↔
      IsFloat 24 ((m : ℚ) + n * 2 ^ k) := by
    have heq : ((-m : ℤ) : ℚ) + ((-n : ℤ) : ℚ) * 2 ^ k = -((m : ℚ) + n * 2 ^ k) := by
      push_cast
      ring
    rw [heq]
    exact ⟨fun h => neg_neg ((m : ℚ) + n * 2 ^ k) ▸ h.neg, IsFloat.neg⟩
  have hhalf : (∃ j : ℤ, j % 2 = 1 ∧ 2 * (((-n : ℤ) : ℚ) * 2 ^ k) = j) ↔
      ∃ j : ℤ, j % 2 = 1 ∧ 2 * ((n : ℚ) * 2 ^ k) = j := by
    constructor <;> intro ⟨j, hj, he⟩
    · exact ⟨-j, by omega, by push_cast at he ⊢; linarith⟩
    · exact ⟨-j, by omega, by push_cast; linarith⟩
  have hodd : -m % 2 = 1 ↔ m % 2 = 1 := by omega
  have heven : -m % 2 = 0 ↔ m % 2 = 0 := by omega
  have hfar : SumFar (-m) (-n) k ↔ SumFar m n k := by
    unfold SumFar
    rw [neg_mul_neg, abs_neg]
  unfold SumKept
  rw [hfloat, hhalf, hodd, heven, hfar, abs_neg, abs_neg]

theorem sumKeepsError_zero {b : ℚ} (hb : IsFloat 24 b) : SumKeepsError 0 b := by
  simp only [SumKeepsError, sumError, zero_add, hb.nearestFloat_eq, add_zero, sub_self,
    nearestFloat_zero]

theorem sumKeepsError_pos (hm : 8388608 ≤ m) (hm' : m < 16777216)
    (hn : n = 0 ∨ 8388608 ≤ n.natAbs ∧ n.natAbs < 16777216) :
    SumKeepsError m (n * 2 ^ k) ↔ SumKept m n k := by
  have hfloat : IsFloat 24 ((n : ℚ) * 2 ^ k) :=
    ⟨n, k, by rw [Int.abs_eq_natAbs]; omega, rfl⟩
  by_cases hsum : IsFloat 24 ((m : ℚ) + n * 2 ^ k)
  · rw [sumKeepsError_exact hm hm' hfloat hsum]
    exact ⟨fun h => ⟨fun _ => h, fun h' => absurd hsum h'⟩, fun h => h.1 hsum⟩
  · have hkept : SumKept m n k ↔
        k = 0 ∧ |m| = 2 ^ 23 ∧ |n| % 4 = 1 ∨ 0 < k ∧ (m % 2 = 0 ∨ SumFar m n k) :=
      ⟨fun h => h.2 hsum, fun h => ⟨fun h' => absurd h' hsum, fun _ => h⟩⟩
    rw [hkept]
    rcases hn with rfl | ⟨hn, hn'⟩
    · apply absurd _ hsum
      rw [Int.cast_zero, zero_mul, add_zero]
      exact isFloat_int (by omega)
    · rcases lt_trichotomy k 0 with hk | rfl | hk
      · have hlow : |(n : ℚ) * 2 ^ k| < 2 ^ 23 := by
          have hpow : (2 : ℚ) ^ k ≤ 2 ^ (-1 : ℤ) := zpow_two_le (by omega)
          have habs : |(n : ℚ)| ≤ ((16777215 : Nat) : ℚ) := natAbs_le_iff.mp (by omega)
          rw [abs_mul_zpow_two]
          rw [zpow_neg_one] at hpow
          have := mul_le_mul habs hpow (zpow_two_pos k).le (by positivity)
          norm_num at this ⊢
          linarith
        exact iff_of_false (sumKeepsError_low hm hm' hfloat hlow hsum) (by omega)
      · rw [zpow_zero, mul_one] at hsum ⊢
        rw [sumKeepsError_same hm hm' hn hn' hsum]
        have hpos : 0 < n := by
          by_contra hneg
          apply hsum
          rw [← Int.cast_add]
          exact isFloat_int (by omega)
        rw [abs_of_pos (by omega), abs_of_pos hpos]
        omega
      · obtain ⟨i, rfl⟩ := Int.eq_ofNat_of_zero_le hk.le
        have hcast : (n : ℚ) * 2 ^ (i : ℤ) = ((n * 2 ^ i : ℤ) : ℚ) := by
          rw [zpow_natCast]
          push_cast
          rfl
        rw [hcast] at hsum ⊢
        rw [sumKeepsError_high (by omega) hm hm' hn hn' hsum]
        have hne : (i : ℤ) ≠ 0 := hk.ne'
        tauto

theorem sumKeepsError_iff (hm : m = 0 ∨ 8388608 ≤ m.natAbs ∧ m.natAbs < 16777216)
    (hn : n = 0 ∨ 8388608 ≤ n.natAbs ∧ n.natAbs < 16777216) :
    SumKeepsError m (n * 2 ^ k) ↔ SumKept m n k := by
  have hfloat : IsFloat 24 ((n : ℚ) * 2 ^ k) :=
    ⟨n, k, by rw [Int.abs_eq_natAbs]; omega, rfl⟩
  rcases hm with rfl | ⟨hm, hm'⟩
  · rw [Int.cast_zero]
    refine iff_of_true (sumKeepsError_zero hfloat) ⟨fun _ h => absurd h.1 (by omega), fun h => ?_⟩
    apply absurd _ h
    rwa [Int.cast_zero, zero_add]
  · rcases (by omega : 8388608 ≤ m ∨ 8388608 ≤ -m) with hpos | hneg
    · exact sumKeepsError_pos hpos (by omega) hn
    · have h := sumKeepsError_pos (m := -m) (n := -n) (k := k) hneg (by omega) (by omega)
      rw [sumKept_neg, Int.cast_neg, Int.cast_neg, neg_mul, sumKeepsError_neg] at h
      exact h

end Kept

/-- The condition on two floats. -/
def AddKept (a b : Single) : Prop := SumKept a.sig b.sig (b.exp - a.exp)

theorem sumKeepsError_val (a b : Single) : SumKeepsError a.val b.val ↔ AddKept a b := by
  have hb : b.val = b.sig * 2 ^ (b.exp - a.exp) * 2 ^ a.exp := by
    rw [mul_assoc, ← zpow_two_add, sub_add_cancel]
    exact b.val_eq
  rw [a.val_eq, hb, sumKeepsError_mul_zpow]
  exact sumKeepsError_iff a.sig_bounds b.sig_bounds

/-- What a sum of two floats and its error are to be. -/
def ErrorFree (a b x y : Single) : Prop :=
  x.val + y.val = a.val + b.val ∧ x = Binary.round 24 (a.val + b.val)

/-- The result of cc_doubleSingle_add when both low parts are 0. -/
def AddErrorFree (a b : Single) : Prop :=
  let c := doubleSingleAdd ⟨a, 0⟩ ⟨b, 0⟩
  ErrorFree a b c.x c.y

def Add3ErrorFree (aH bH : Vec3f) : Prop :=
  let c := doubleSingleAdd3 aH ⟨0, 0, 0⟩ bH ⟨0, 0, 0⟩
  ErrorFree aH.x bH.x c.1.x c.2.x ∧ ErrorFree aH.y bH.y c.1.y c.2.y ∧
    ErrorFree aH.z bH.z c.1.z c.2.z

theorem addErrorFree_iff_keeps (a b : Single) :
    AddErrorFree a b ↔ SumKeepsError a.val b.val := by
  have hx : (doubleSingleAdd ⟨a, 0⟩ ⟨b, 0⟩).x.val =
      nearestFloat 24 (nearestFloat 24 (a.val + b.val) + sumError a.val b.val) := by
    simp only [doubleSingleAdd, Binary.self_add_zero, Binary.add_val, Binary.sub_val, sumError]
  have hy : (doubleSingleAdd ⟨a, 0⟩ ⟨b, 0⟩).y.val = nearestFloat 24 (sumError a.val b.val -
      nearestFloat 24
        ((doubleSingleAdd ⟨a, 0⟩ ⟨b, 0⟩).x.val - nearestFloat 24 (a.val + b.val))) := by
    simp only [doubleSingleAdd, Binary.self_add_zero, Binary.add_val, Binary.sub_val, sumError]
  have herr : IsFloat 24 (sumError a.val b.val) := nearestFloat_isFloat (by omega) _
  constructor
  · intro h
    obtain ⟨hsum, hround⟩ := h
    have hround' := congrArg Binary.val hround
    rw [Binary.round_val] at hround'
    rw [hy, hround', sub_self, nearestFloat_zero, sub_zero, herr.nearestFloat_eq] at hsum
    unfold SumKeepsError
    linarith
  · intro h
    have hx' : (doubleSingleAdd ⟨a, 0⟩ ⟨b, 0⟩).x.val = nearestFloat 24 (a.val + b.val) := by
      rw [hx, h, add_sub_cancel]
    refine ⟨?_, Binary.ext hx'⟩
    rw [hy, hx', sub_self, nearestFloat_zero, sub_zero, herr.nearestFloat_eq, h]
    ring

theorem addErrorFree_iff (a b : Single) : AddErrorFree a b ↔ AddKept a b :=
  (addErrorFree_iff_keeps a b).trans (sumKeepsError_val a b)

theorem doubleSingle_add_exact (a b : Single) (aH bH : Vec3f) :
    (AddErrorFree a b ↔ AddKept a b) ∧
    (Add3ErrorFree aH bH ↔ AddKept aH.x bH.x ∧ AddKept aH.y bH.y ∧ AddKept aH.z bH.z) := by
  refine ⟨addErrorFree_iff a b, ?_⟩
  rw [← addErrorFree_iff, ← addErrorFree_iff, ← addErrorFree_iff]
  exact Iff.rfl

/-- For 2^23 and 1/4 the error is lost. -/
theorem doubleSingle_add_loses :
    ¬ AddErrorFree (.round 24 8388608) (.round 24 (1 / 4)) ∧
    ¬ Add3ErrorFree ⟨.round 24 8388608, 0, 0⟩ ⟨.round 24 (1 / 4), 0, 0⟩ := by
  have hquarter : IsFloat 24 (1 / 4 : ℚ) := ⟨1, -2, by norm_num, by norm_num⟩
  have ha : (Binary.round 24 8388608).val = ((8388608 : ℤ) : ℚ) := by
    rw [Binary.round_val, show (8388608 : ℚ) = ((8388608 : ℤ) : ℚ) by norm_num]
    exact (isFloat_int (by omega)).nearestFloat_eq
  have hb : (Binary.round 24 (1 / 4)).val = 1 / 4 := hquarter.nearestFloat_eq
  have hsum : ¬ IsFloat 24 (((8388608 : ℤ) : ℚ) + 1 / 4) := by
    intro h
    obtain ⟨n, hn⟩ := exists_int_of_isFloat h (by
      rw [abs_of_nonneg (by norm_num)]
      norm_num)
    have hfour : (33554433 : ℤ) = 4 * n := by
      have : (33554433 : ℚ) = 4 * n := by
        rw [← hn]
        norm_num
      exact_mod_cast this
    omega
  have hadd : ¬ AddErrorFree (.round 24 8388608) (.round 24 (1 / 4)) := by
    rw [addErrorFree_iff_keeps, ha, hb]
    exact sumKeepsError_low (by omega) (by omega) hquarter (by norm_num [abs_of_nonneg]) hsum
  exact ⟨hadd, fun h => hadd h.1⟩

end LibCC
