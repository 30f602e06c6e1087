import LibCC.NearestFloat

/-! Rounding to the nearest in a format whose numbers have a first and a last bit: below some
bound they keep to one grid, and from another one on there are none. -/

/-- Numbers of `bits` bits on the grid of `2 ^ last` below `2 ^ top`. -/
structure FloatFormat where
  bits : ℕ
  last : ℤ
  top : ℤ
  pos : 0 < bits
  room : last + bits ≤ top

section Grid

variable {K : Type*} [Field K] [LinearOrder K] [IsStrictOrderedRing K] [FloorRing K] {x g : K}
  {e : ℤ}

theorem abs_sub_gridNearest (x : K) (e : ℤ) : |x - gridNearest e x| ≤ 2 ^ e / 2 := by
  have hpos := zpow_two_pos (K := K) e
  have hnear := (nearestEven_roundsTo (x / 2 ^ e)).1
  have hx : x - gridNearest e x = (x / 2 ^ e - nearestEven (x / 2 ^ e)) * 2 ^ e := by
    rw [gridNearest, sub_mul, div_mul_cancel₀ x hpos.ne']
  rw [hx, abs_mul_zpow_two]
  linarith [mul_le_mul_of_nonneg_right hnear hpos.le]

theorem gridNearest_nearest (hg : OnGrid e g) : |x - gridNearest e x| ≤ |x - g| := by
  have hpos := zpow_two_pos (K := K) e
  obtain ⟨m, rfl⟩ := hg
  rw [gridNearest]
  by_cases hm : m = nearestEven (x / 2 ^ e)
  · rw [hm]
  · have hnear := ((nearestEven_roundsTo (x / 2 ^ e)).nearest hm).2
    have hscale : ∀ n : ℤ, x - n * 2 ^ e = (x / 2 ^ e - n) * 2 ^ e := by
      intro n
      rw [sub_mul, div_mul_cancel₀ x hpos.ne']
    rw [hscale, hscale, abs_mul_zpow_two, abs_mul_zpow_two]
    exact mul_le_mul_of_nonneg_right hnear hpos.le

theorem gridNearest_eq (hx : OnGrid e x) : gridNearest e x = x := by
  obtain ⟨n, hn⟩ := hx
  rw [gridNearest, (div_eq_iff (zpow_two_pos _).ne').mpr hn, nearestEven_intCast]
  exact hn.symm

omit [IsStrictOrderedRing K] in
theorem gridNearest_onGrid (e : ℤ) (x : K) : OnGrid e (gridNearest e x) := ⟨_, rfl⟩

end Grid

namespace FloatFormat

variable {K : Type*} [Field K] [LinearOrder K] [IsStrictOrderedRing K] [FloorRing K]
  (f : FloatFormat) {x b : K} {e : ℤ}

/-- What the format has where it is not bounded above. -/
structure Has (x : K) : Prop where
  isFloat : IsFloat f.bits x
  onGrid : OnGrid f.last x

/-- The grid on which a number is rounded. -/
def gridExp (x : K) : ℤ := max (lastExp f.bits x) f.last

def nearest (x : K) : K := gridNearest (f.gridExp x) x

variable {f}

omit [IsStrictOrderedRing K] in
theorem gridExp_coarse (h : f.last ≤ lastExp f.bits x) : f.gridExp x = lastExp f.bits x :=
  max_eq_left h

omit [IsStrictOrderedRing K] in
theorem gridExp_fine (h : lastExp f.bits x ≤ f.last) : f.gridExp x = f.last := max_eq_right h

omit [IsStrictOrderedRing K] in
theorem nearest_coarse (h : f.last ≤ lastExp f.bits x) : f.nearest x = nearestFloat f.bits x := by
  rw [nearest, gridExp_coarse h, gridNearest, nearestFloat]

theorem abs_sub_nearest (f : FloatFormat) (x : K) :
    |x - f.nearest x| ≤ 2 ^ f.gridExp x / 2 := abs_sub_gridNearest x _

@[simp] theorem nearest_zero (f : FloatFormat) : f.nearest (0 : K) = 0 := by
  simp [nearest, gridNearest]

theorem nearest_neg (f : FloatFormat) (x : K) : f.nearest (-x) = -f.nearest x := by
  have he : f.gridExp (-x) = f.gridExp x := by
    rw [gridExp, gridExp, lastExp, lastExp, abs_neg]
  rw [nearest, nearest, he, gridNearest, gridNearest, neg_div, nearestEven_neg]
  push_cast
  ring

theorem nearest_onGrid (hx : OnGrid e x) : OnGrid e (f.nearest x) := by
  rcases le_or_gt e (f.gridExp x) with h | h
  · exact (gridNearest_onGrid _ x).mono h
  · rw [nearest, gridNearest_eq (hx.mono h.le)]
    exact hx

theorem nearest_onGrid_of_le (h : 2 ^ (e + f.bits - 1) ≤ |x|) : OnGrid e (f.nearest x) :=
  (gridNearest_onGrid _ x).mono ((le_lastExp h).trans (le_max_left _ _))

omit [LinearOrder K] [IsStrictOrderedRing K] [FloorRing K] in
theorem Has.neg (h : f.Has x) : f.Has (-x) := ⟨h.isFloat.neg, h.onGrid.neg⟩

theorem has_of_onGrid (he : f.last ≤ e) (hx : OnGrid e x) (h : |x| ≤ 2 ^ (e + f.bits)) : f.Has x :=
  ⟨isFloat_of_onGrid f.pos hx h, hx.mono he⟩

theorem has_zero (f : FloatFormat) : f.Has (0 : K) :=
  has_of_onGrid (le_refl f.last) ⟨0, by simp⟩ (by simpa using (zpow_two_pos _).le)

theorem has_zpow (h : f.last ≤ e) : f.Has ((2 : K) ^ e) := by
  have hpos := f.pos
  apply has_of_onGrid h (OnGrid.zpow (le_refl e))
  rw [abs_of_pos (zpow_two_pos e)]
  exact zpow_two_le (by omega)

theorem Has.nearest_eq (h : f.Has x) : f.nearest x = x := by
  rw [nearest]
  apply gridNearest_eq
  rcases le_total f.last (lastExp f.bits x) with he | he
  · rw [gridExp_coarse he]
    exact h.isFloat.onGrid_lastExp
  · rw [gridExp_fine he]
    exact h.onGrid

/-- No number of the format is nearer. -/
theorem nearest_nearest (h : f.Has b) : |x - f.nearest x| ≤ |x - b| := by
  rcases le_total f.last (lastExp f.bits x) with he | he
  · rw [nearest_coarse he]
    exact nearestFloat_nearest f.pos h.isFloat
  · rw [nearest, gridExp_fine he]
    exact gridNearest_nearest h.onGrid

theorem le_nearest (hb : f.Has b) (h : b ≤ x) : b ≤ f.nearest x := by
  have hnear := nearest_nearest (x := x) hb
  by_contra hlt
  rw [not_le] at hlt
  rw [abs_of_nonneg (by linarith), abs_of_nonneg (by linarith)] at hnear
  linarith

theorem nearest_le (hb : f.Has b) (h : x ≤ b) : f.nearest x ≤ b := by
  have := le_nearest (x := -x) hb.neg (by linarith)
  rw [nearest_neg] at this
  linarith

theorem abs_nearest (f : FloatFormat) (x : K) : |f.nearest x| = f.nearest |x| := by
  rcases le_total 0 x with h | h
  · rw [abs_of_nonneg h, abs_of_nonneg (le_nearest f.has_zero h)]
  · rw [abs_of_nonpos h, nearest_neg, abs_of_nonpos (nearest_le f.has_zero h)]

theorem nearest_has (f : FloatFormat) (x : K) : f.Has (f.nearest x) := by
  rcases le_total f.last (lastExp f.bits x) with he | he
  · rw [nearest_coarse he]
    exact ⟨nearestFloat_isFloat f.pos x, OnGrid.mono ⟨_, rfl⟩ he⟩
  · have hlt := abs_lt_of_lastExp f.bits x
    have hle : |x| ≤ 2 ^ (f.last + f.bits) := hlt.le.trans (zpow_two_le (by omega))
    have hgrid : OnGrid f.last (f.nearest x) := by
      rw [nearest, gridExp_fine he]
      exact gridNearest_onGrid _ x
    apply has_of_onGrid (le_refl f.last) hgrid
    rw [abs_nearest]
    exact nearest_le (has_zpow (by omega)) hle

/-- What is nearer to zero than half the last bit is lost. -/
theorem nearest_eq_zero (h : |x| ≤ 2 ^ f.last / 2) : f.nearest x = 0 := by
  have hbits := f.pos
  rcases eq_or_ne x 0 with rfl | hne
  · exact f.nearest_zero
  · have hpos := zpow_two_pos (K := K) f.last
    have hlt : |x| < 2 ^ (f.last + f.bits) := by
      have hle : (2 : K) ^ f.last ≤ 2 ^ (f.last + f.bits) := zpow_two_le (by omega)
      linarith
    have hround : nearestEven (x / 2 ^ f.last) = 0 := by
      rw [nearestEven_eq_iff]
      refine ⟨?_, fun _ => rfl⟩
      rw [Int.cast_zero, sub_zero, abs_div, abs_of_pos hpos, div_le_iff₀ hpos]
      linarith
    rw [nearest, gridExp_fine (lastExp_lt hne hlt), gridNearest, hround, Int.cast_zero, zero_mul]

section Top

theorem half_top_le (f : FloatFormat) :
    (2 : K) ^ (f.top - f.bits + f.bits - 1) ≤ 2 ^ f.top - 2 ^ (f.top - f.bits) / 2 := by
  have hbits := f.pos
  have hle : (2 : K) ^ (f.top - f.bits) ≤ 2 ^ (f.top - 1) := zpow_two_le (by omega)
  have hdouble : (2 : K) ^ f.top = 2 * 2 ^ (f.top - 1) := by
    rw [show f.top = 1 + (f.top - 1) by ring, zpow_two_add, zpow_one]
    congr 2
    ring
  have hpos := zpow_two_pos (K := K) (f.top - 1)
  rw [show f.top - f.bits + f.bits - 1 = f.top - 1 by ring]
  linarith

/-- A number is rounded below the top if it is below the middle between the top and the
last number before it. -/
theorem nearest_lt_top_iff :
    f.nearest x < 2 ^ f.top ↔ x < 2 ^ f.top - 2 ^ (f.top - f.bits) / 2 := by
  have hbits := f.pos
  have hroom := f.room
  have hpos := zpow_two_pos (K := K) (f.top - f.bits)
  have htop : f.Has ((2 : K) ^ f.top) := has_zpow (by omega)
  constructor
  · intro h
    by_contra hge
    rw [not_lt] at hge
    rcases le_or_gt (2 ^ f.top) x with hx | hx
    · exact absurd (le_nearest htop hx) (not_le.mpr h)
    · have hlow := f.half_top_le.trans hge
      have hxpos : 0 < x := (zpow_two_pos _).trans_le hlow
      have hexp : lastExp f.bits x = f.top - f.bits := by
        apply le_antisymm
        · apply lastExp_lt hxpos.ne'
          rw [abs_of_pos hxpos, sub_add_cancel]
          exact hx
        · apply le_lastExp
          rw [abs_of_pos hxpos]
          exact hlow
      rw [nearest, gridExp_coarse (by omega), hexp, gridNearest] at h
      have hsplit : (2 : K) ^ f.top = (2 ^ f.bits : ℤ) * 2 ^ (f.top - f.bits) := by
        push_cast
        rw [← zpow_natCast, ← zpow_two_add]
        congr 1
        ring
      rw [hsplit] at h hge
      obtain ⟨hnear, htie⟩ := nearestEven_roundsTo (x / 2 ^ (f.top - f.bits))
      have hn : nearestEven (x / 2 ^ (f.top - f.bits)) < 2 ^ f.bits := by
        exact_mod_cast lt_of_mul_lt_mul_right h hpos.le
      have hq : ((2 ^ f.bits : ℤ) : K) - 1 / 2 ≤ x / 2 ^ (f.top - f.bits) := by
        rw [le_div_iff₀ hpos]
        linarith
      generalize nearestEven (x / 2 ^ (f.top - f.bits)) = n at hnear htie hn
      generalize x / 2 ^ (f.top - f.bits) = q at hnear htie hq
      have hone : (n : K) ≤ (2 ^ f.bits : ℤ) - 1 := by
        exact_mod_cast Int.le_sub_one_of_lt hn
      -- the number before the top is odd, and it is at most as near
      have hhalf := (abs_le.mp hnear).2
      have heven := htie (by rw [abs_of_nonneg (by linarith)]; linarith)
      have hlast : (n : K) = ((2 ^ f.bits : ℤ) - 1 : ℤ) := by
        push_cast at hone hq ⊢
        linarith
      have hlast' : n = 2 ^ f.bits - 1 := by exact_mod_cast hlast
      obtain ⟨k, hk⟩ := Nat.exists_eq_add_of_lt hbits
      rw [hlast', hk, zero_add, pow_succ] at heven
      omega
  · intro h
    by_contra hge
    rw [not_lt] at hge
    have hbefore : f.Has ((2 : K) ^ f.top - 2 ^ (f.top - f.bits)) := by
      apply has_of_onGrid (e := f.top - f.bits) (by omega)
      · exact (OnGrid.zpow (by omega)).sub (OnGrid.zpow (le_refl _))
      · have hle : (2 : K) ^ (f.top - f.bits) ≤ 2 ^ f.top := zpow_two_le (by omega)
        rw [sub_add_cancel, abs_of_nonneg (by linarith)]
        linarith
    have hnear := nearest_nearest (x := x) hbefore
    rw [abs_sub_comm, abs_of_nonneg (by linarith)] at hnear
    rcases abs_cases (x - (2 ^ f.top - 2 ^ (f.top - f.bits))) with hcase | hcase
    · linarith
    · linarith

theorem abs_nearest_lt_top_iff :
    |f.nearest x| < 2 ^ f.top ↔ |x| < 2 ^ f.top - 2 ^ (f.top - f.bits) / 2 := by
  rw [abs_nearest, nearest_lt_top_iff]

end Top

section Wider

variable {g : FloatFormat} (hlast : g.last ≤ f.last)

include hlast

omit [FloorRing K] in
theorem Has.wider (hbits : f.bits ≤ g.bits) (h : f.Has x) : g.Has x := by
  obtain ⟨m, e, hm, hx⟩ := h.isFloat
  refine ⟨⟨m, e, ?_, hx⟩, h.onGrid.mono hlast⟩
  exact hm.trans_le (pow_le_pow_right₀ (by norm_num) hbits)

/-- In a wider format the rest is exact. -/
theorem has_rest (hx : g.Has x) : g.Has (x - f.nearest x) := by
  have hgrid := hx.isFloat.onGrid_lastExp
  refine ⟨isFloat_of_onGrid g.pos (hgrid.sub (nearest_onGrid hgrid)) ?_, ?_⟩
  · have hnear := nearest_nearest (x := x) f.has_zero
    rw [sub_zero] at hnear
    exact hnear.trans (abs_lt_of_lastExp g.bits x).le
  · exact hx.onGrid.sub ((f.nearest_has x).onGrid.mono hlast)

end Wider

end FloatFormat
