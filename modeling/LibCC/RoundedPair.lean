import LibCC.RangedFloat

/-! A number kept as two: what it is rounded to, and what the rest is rounded
to. Joined again the two give back all but the last bits, and nothing more is
lost however often this is done. -/

namespace FloatFormat

variable {K : Type*} [Field K] [LinearOrder K] [IsStrictOrderedRing K] [FloorRing K]
  {f g : FloatFormat} {x : K} {e : ℤ}

/-- The two numbers joined again. -/
def joined (f : FloatFormat) (x : K) : K := f.nearest x + f.nearest (x - f.nearest x)

theorem joined_neg (f : FloatFormat) (x : K) : f.joined (-x) = -f.joined x := by
  have hrest : -x - -f.nearest x = -(x - f.nearest x) := by ring
  rw [joined, joined, nearest_neg, hrest, nearest_neg]
  ring

@[simp] theorem joined_zero (f : FloatFormat) : f.joined (0 : K) = 0 := by
  simp [joined]

section Positive

variable (he : f.last ≤ e) (hlo : 2 ^ (e + f.bits - 1) ≤ x) (hhi : x ≤ 2 ^ (e + f.bits))

include he hlo hhi

/-- The rest cannot lead out of the range between two powers of two. -/
theorem joined_bounds : 2 ^ (e + f.bits - 1) ≤ f.joined x ∧ f.joined x ≤ 2 ^ (e + f.bits) := by
  have hbits := f.pos
  have hge : 2 ^ (e + f.bits - 1) ≤ f.nearest x := le_nearest (has_zpow (by omega)) hlo
  have hle : f.nearest x ≤ 2 ^ (e + f.bits) := nearest_le (has_zpow (by omega)) hhi
  have hgrid : OnGrid e (f.nearest x) := nearest_onGrid_of_le (hlo.trans (le_abs_self x))
  have hpow : (2 : K) ^ (e + f.bits - 1) ≤ 2 ^ (e + f.bits) := zpow_two_le (by omega)
  have hpos := zpow_two_pos (K := K) (e + f.bits - 1)
  have hlow : f.Has (2 ^ (e + f.bits - 1) - f.nearest x) := by
    apply has_of_onGrid he ((OnGrid.zpow (by omega)).sub hgrid)
    rw [abs_le]
    constructor <;> linarith
  have hhigh : f.Has (2 ^ (e + f.bits) - f.nearest x) := by
    apply has_of_onGrid he ((OnGrid.zpow (by omega)).sub hgrid)
    rw [abs_le]
    constructor <;> linarith
  have hrest := le_nearest (x := x - f.nearest x) hlow (by linarith)
  have hrest' := nearest_le (x := x - f.nearest x) hhigh (by linarith)
  rw [joined]
  constructor <;> linarith

end Positive

theorem abs_joined_bounds (he : f.last ≤ e) (hlo : 2 ^ (e + f.bits - 1) ≤ |x|)
    (hhi : |x| ≤ 2 ^ (e + f.bits)) :
    2 ^ (e + f.bits - 1) ≤ |f.joined x| ∧ |f.joined x| ≤ 2 ^ (e + f.bits) := by
  have hpos := zpow_two_pos (K := K) (e + f.bits - 1)
  rcases le_total 0 x with h | h
  · rw [abs_of_nonneg h] at hlo hhi
    obtain ⟨hge, hle⟩ := joined_bounds he hlo hhi
    rw [abs_of_nonneg (by linarith)]
    exact ⟨hge, hle⟩
  · rw [abs_of_nonpos h] at hlo hhi
    obtain ⟨hge, hle⟩ := joined_bounds he hlo hhi
    rw [← abs_neg, ← joined_neg, abs_of_nonneg (by linarith)]
    exact ⟨hge, hle⟩

/-- Where the first number is on the last grid, there is no second one. -/
theorem joined_fine (h : lastExp f.bits x ≤ f.last) : f.joined x = f.nearest x := by
  have hrest := f.abs_sub_nearest x
  rw [gridExp_fine h] at hrest
  rw [joined, nearest_eq_zero hrest, add_zero]

/-- What the second rounding leaves off. -/
theorem abs_joined_sub (f : FloatFormat) (x : K) :
    |f.joined x - x| ≤ max (|x| / 2 ^ (2 * f.bits + 1)) (2 ^ f.last / 2) := by
  have hlast := zpow_two_pos (K := K) f.last
  rcases eq_or_ne x 0 with rfl | hx
  · rw [joined_zero, sub_zero, abs_zero]
    exact le_max_of_le_right (by linarith)
  have hdiff : f.joined x - x = -(x - f.nearest x - f.nearest (x - f.nearest x)) := by
    rw [joined]
    ring
  have hfirst := f.abs_sub_nearest x
  have hsecond := f.abs_sub_nearest (x - f.nearest x)
  rw [hdiff, abs_neg]
  generalize x - f.nearest x = rest at hfirst hsecond
  rcases eq_or_ne rest 0 with rfl | hne
  · rw [nearest_zero, sub_zero, abs_zero]
    exact le_max_of_le_right (by linarith)
  rcases le_or_gt (lastExp f.bits rest) f.last with hfine | hcoarse
  · rw [gridExp_fine hfine] at hsecond
    exact le_max_of_le_right hsecond
  · have he : f.last < lastExp f.bits x := by
      by_contra hle
      rw [not_lt] at hle
      rw [gridExp_fine hle] at hfirst
      have hsmall : |rest| < 2 ^ (f.last + f.bits) := by
        have hle : (2 : K) ^ f.last ≤ 2 ^ (f.last + f.bits) := zpow_two_le (by omega)
        linarith
      exact absurd (lastExp_lt hne hsmall) (not_le.mpr hcoarse)
    rw [gridExp_coarse he.le] at hfirst
    rw [nearest_coarse hcoarse.le]
    have hlow := le_abs_of_lastExp f.bits hx
    generalize lastExp f.bits x = e at he hfirst hlow
    have hpow : (2 : K) ^ e / 2 = 2 ^ (e - 1 - f.bits + f.bits) := by
      rw [show e = (e - 1 - f.bits + f.bits) + 1 by omega, zpow_two_add, zpow_one,
        mul_div_cancel_right₀]
      · congr 1
        omega
      · norm_num
    rw [hpow] at hfirst
    have hbound := abs_sub_nearestFloat f.pos hfirst
    apply le_max_of_le_left
    rw [le_div_iff₀ (by positivity)]
    have hscale : (2 : K) ^ (e - 1 - f.bits) / 2 * 2 ^ (2 * f.bits + 1) = 2 ^ (e + f.bits - 1) := by
      have hnat : (2 : K) ^ (2 * f.bits + 1) = 2 ^ ((2 * f.bits + 1 : ℕ) : ℤ) :=
        (zpow_natCast 2 _).symm
      rw [hnat, show ((2 * f.bits + 1 : ℕ) : ℤ) = 2 * f.bits + 1 by push_cast; ring,
        div_mul_eq_mul_div, ← zpow_two_add, div_eq_iff two_ne_zero,
        show e - 1 - f.bits + (2 * f.bits + 1 : ℤ) = e + f.bits - 1 + 1 by ring,
        zpow_two_add _ 1, zpow_one]
    calc _ ≤ (2 : K) ^ (e - 1 - f.bits) / 2 * 2 ^ (2 * f.bits + 1) :=
          mul_le_mul_of_nonneg_right hbound (by positivity)
      _ ≤ |x| := hscale.trans_le hlow

/-- The rest of the joined number is one of the format again. Where the joined number is rounded
the other way than the number itself, it is half way between the two. -/
theorem has_rest_joined (f : FloatFormat) (x : K) :
    f.Has (f.joined x - f.nearest (f.joined x)) := by
  by_cases hsame : f.nearest (f.joined x) = f.nearest x
  · rw [hsame, joined, add_sub_cancel_left]
    exact f.nearest_has _
  rcases le_or_gt (lastExp f.bits x) f.last with hfine | hcoarse
  · rw [joined_fine hfine, (f.nearest_has x).nearest_eq] at hsame
    exact absurd rfl hsame
  · have hne : x ≠ 0 := by
      rintro rfl
      simp at hsame
    have hlow := le_abs_of_lastExp f.bits hne
    have hhigh := (abs_lt_of_lastExp f.bits x).le
    have hfirst := f.abs_sub_nearest x
    rw [gridExp_coarse hcoarse.le] at hfirst
    generalize lastExp f.bits x = e at hcoarse hlow hhigh hfirst
    obtain ⟨hjlow, hjhigh⟩ := abs_joined_bounds hcoarse.le hlow hhigh
    have hhalf : (2 : K) ^ e / 2 = 2 ^ (e - 1) := by
      rw [show e = (e - 1) + 1 by omega, zpow_two_add, zpow_one]
      simp
    rw [hhalf] at hfirst
    obtain ⟨hrlow, hrhigh⟩ := abs_le.mp hfirst
    have hpow : f.Has ((2 : K) ^ (e - 1)) := has_zpow (by omega)
    have hrest : |f.joined x - f.nearest x| ≤ 2 ^ (e - 1) := by
      rw [joined, add_sub_cancel_left, abs_le]
      exact ⟨le_nearest hpow.neg hrlow, nearest_le hpow hrhigh⟩
    have hfar : 2 ^ e ≤ |f.nearest (f.joined x) - f.nearest x| := by
      by_contra hlt
      exact hsame ((nearest_onGrid_of_le hjlow).eq_of_abs_lt (nearest_onGrid_of_le hlow)
        (not_le.mp hlt))
    have hnear := nearest_nearest (x := f.joined x) (f.nearest_has x)
    have htriangle := abs_sub_le (f.nearest (f.joined x)) (f.joined x) (f.nearest x)
    rw [abs_sub_comm (f.nearest (f.joined x)) (f.joined x)] at htriangle
    have htie : |f.joined x - f.nearest (f.joined x)| = 2 ^ (e - 1) := by
      apply le_antisymm <;> linarith
    rcases (abs_eq (zpow_two_pos _).le).mp htie with h | h
    · rw [h]
      exact hpow
    · rw [h]
      exact hpow.neg

theorem joined_joined (f : FloatFormat) (x : K) : f.joined (f.joined x) = f.joined x := by
  have hrest := (f.has_rest_joined x).nearest_eq
  rw [joined, hrest]
  ring

theorem joined_eq_iff (f : FloatFormat) (x : K) :
    f.joined x = x ↔ f.Has (x - f.nearest x) := by
  constructor
  · intro h
    have hrest : x - f.nearest x = f.nearest (x - f.nearest x) := by
      rw [joined] at h
      linear_combination -h
    rw [hrest]
    exact f.nearest_has _
  · intro h
    rw [joined, h.nearest_eq]
    ring

/-- In a wider format the sum that joins the two is exact. -/
theorem has_joined (hlast : g.last ≤ f.last) (hbits : f.bits ≤ g.bits) (hx : g.Has x) :
    g.Has (f.joined x) := by
  rcases eq_or_ne x 0 with rfl | hne
  · rw [joined_zero]
    exact hx
  rcases le_or_gt (lastExp f.bits x) f.last with hfine | hcoarse
  · rw [joined_fine hfine]
    exact (f.nearest_has x).wider hlast hbits
  · have hgrid := hx.isFloat.onGrid_lastExp
    have hsum := (nearest_onGrid (f := f) hgrid).add
      (nearest_onGrid (f := f) (hgrid.sub (nearest_onGrid (f := f) hgrid)))
    refine ⟨isFloat_of_onGrid g.pos hsum ?_, ?_⟩
    · have hbound := (abs_joined_bounds hcoarse.le (le_abs_of_lastExp f.bits hne)
        (abs_lt_of_lastExp f.bits x).le).2
      rwa [show lastExp f.bits x + f.bits = lastExp g.bits x + g.bits by
        unfold lastExp; omega] at hbound
    · exact ((f.nearest_has x).onGrid.add (f.nearest_has _).onGrid).mono hlast

end FloatFormat
