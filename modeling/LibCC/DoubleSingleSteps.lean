import LibCC.DoubleSingle

/-! The chain of roundings in the sum of two floats, in units of the last bit of the first. -/

namespace LibCC

/-- t2 of cc_doubleSingle_add for `a` and `b` when both low parts are 0. -/
def sumError (a b : ℚ) : ℚ :=
  let t1 := nearestFloat 24 (a + b)
  let e := nearestFloat 24 (t1 + a)
  nearestFloat 24 (nearestFloat 24 (b - e) + nearestFloat 24 (a - nearestFloat 24 (t1 - e)))

/-- The error of the first sum comes out. -/
def SumKeepsError (a b : ℚ) : Prop := sumError a b = a + b - nearestFloat 24 (a + b)

theorem sumError_neg (a b : ℚ) : sumError (-a) (-b) = -sumError a b := by
  simp only [sumError]
  rw [show -a + -b = -(a + b) by ring, nearestFloat_neg,
    show -nearestFloat 24 (a + b) + -a = -(nearestFloat 24 (a + b) + a) by ring, nearestFloat_neg]
  generalize nearestFloat 24 (nearestFloat 24 (a + b) + a) = e
  generalize nearestFloat 24 (a + b) = s
  rw [show -b - -e = -(b - e) by ring, nearestFloat_neg, show -s - -e = -(s - e) by ring,
    nearestFloat_neg, show -a - -nearestFloat 24 (s - e) = -(a - nearestFloat 24 (s - e)) by ring,
    nearestFloat_neg, ← neg_add, nearestFloat_neg]

theorem sumError_mul_zpow (a b : ℚ) (d : ℤ) :
    sumError (a * 2 ^ d) (b * 2 ^ d) = sumError a b * 2 ^ d := by
  simp only [sumError]
  rw [← add_mul, nearestFloat_mul_zpow, ← add_mul, nearestFloat_mul_zpow]
  rw [← sub_mul, nearestFloat_mul_zpow, ← sub_mul, nearestFloat_mul_zpow, ← sub_mul,
    nearestFloat_mul_zpow, ← add_mul, nearestFloat_mul_zpow]

theorem sumKeepsError_neg {a b : ℚ} : SumKeepsError (-a) (-b) ↔ SumKeepsError a b := by
  unfold SumKeepsError
  rw [sumError_neg, ← neg_add, nearestFloat_neg]
  constructor <;> intro h <;> linarith

theorem sumKeepsError_mul_zpow {a b : ℚ} (d : ℤ) :
    SumKeepsError (a * 2 ^ d) (b * 2 ^ d) ↔ SumKeepsError a b := by
  unfold SumKeepsError
  rw [sumError_mul_zpow, ← add_mul, nearestFloat_mul_zpow, ← sub_mul]
  exact mul_left_inj' (zpow_two_pos d).ne'

/-! Rounding an integer. -/

/-- `x` is rounded to `y`. -/
def IntRounds (x y : ℤ) : Prop := nearestFloat 24 (x : ℚ) = y

theorem exists_intRounds (x : ℤ) : ∃ y, IntRounds x y := by
  obtain ⟨y, hy⟩ := nearestFloat_onGrid (p := 24) (e := 0) (x := (x : ℚ)) ⟨x, by simp⟩
  rw [zpow_zero, mul_one] at hy
  exact ⟨y, hy⟩

section IntRounds

variable {x y : ℤ} {j : Nat}

theorem natAbs_le_iff {x : ℤ} {n : Nat} : x.natAbs ≤ n ↔ |(x : ℚ)| ≤ n := by
  rw [← Int.cast_abs, ← Nat.cast_natAbs, Nat.cast_le]

theorem le_natAbs_iff {x : ℤ} {n : Nat} : n ≤ x.natAbs ↔ (n : ℚ) ≤ |(x : ℚ)| := by
  rw [← Int.cast_abs, ← Nat.cast_natAbs, Nat.cast_le]

theorem pow_cast_zpow (j k : Nat) : ((2 ^ (j + k) : Nat) : ℚ) = 2 ^ ((j : ℤ) + (k : ℤ)) := by
  rw [← Nat.cast_add, zpow_natCast]
  push_cast
  rfl

theorem IntRounds.coarse (h : IntRounds x y) (hx : 2 ^ (j + 23) ≤ x.natAbs) : (2 : ℤ) ^ j ∣ y := by
  rw [le_natAbs_iff, pow_cast_zpow] at hx
  have hlo : (2 : ℚ) ^ ((j : ℤ) + (24 : Nat) - 1) ≤ |(x : ℚ)| := by
    rwa [show (j : ℤ) + (24 : Nat) - 1 = j + (23 : Nat) by push_cast; ring]
  obtain ⟨n, hn⟩ := nearestFloat_coarse hlo
  rw [h, zpow_natCast] at hn
  exact ⟨n, by rw [mul_comm]; exact_mod_cast hn⟩

theorem IntRounds.near (h : IntRounds x y) (hx : x.natAbs ≤ 2 ^ (j + 24)) :
    2 * (x - y).natAbs ≤ 2 ^ j := by
  rw [natAbs_le_iff, pow_cast_zpow] at hx
  have hle := abs_sub_nearestFloat (by omega) hx
  rw [h, zpow_natCast] at hle
  have hle' : ((2 * (x - y).natAbs : Nat) : ℚ) ≤ ((2 ^ j : Nat) : ℚ) := by
    rw [Nat.cast_mul, Nat.cast_natAbs, Int.cast_abs, Int.cast_sub]
    push_cast
    linarith
  exact Nat.cast_le.mp hle'

theorem IntRounds.tie (h : IntRounds x y) (hlo : 2 ^ (j + 23) ≤ x.natAbs)
    (hhi : x.natAbs ≤ 2 ^ (j + 24)) (he : 2 * (x - y).natAbs = 2 ^ j) : (2 : ℤ) ^ (j + 1) ∣ y := by
  rw [le_natAbs_iff, pow_cast_zpow] at hlo
  rw [natAbs_le_iff, pow_cast_zpow] at hhi
  have hlo' : (2 : ℚ) ^ ((j : ℤ) + (24 : Nat) - 1) ≤ |(x : ℚ)| := by
    rw [show (j : ℤ) + (24 : Nat) - 1 = j + (23 : Nat) by push_cast; ring]
    exact hlo
  have habs : |(x : ℚ) - nearestFloat 24 (x : ℚ)| = 2 ^ (j : ℤ) / 2 := by
    have he' : ((2 * (x - y).natAbs : Nat) : ℚ) = ((2 ^ j : Nat) : ℚ) := by rw [he]
    rw [Nat.cast_mul, Nat.cast_natAbs, Int.cast_abs, Int.cast_sub] at he'
    push_cast at he'
    rw [h, zpow_natCast]
    linarith
  have htie := nearestFloat_tie (by omega) hlo' hhi habs
  rw [h] at htie
  obtain ⟨n, hn⟩ := htie
  rw [← Nat.cast_succ, zpow_natCast] at hn
  exact ⟨n, by rw [mul_comm]; exact_mod_cast hn⟩

/-- What rounding does with the last three bits, as far as it is needed. -/
structure IntStep (x y : ℤ) : Prop where
  exact : x.natAbs ≤ 16777216 → y = x
  even : 16777216 ≤ x.natAbs → y % 2 = 0
  near1 : x.natAbs ≤ 33554432 → (x - y).natAbs ≤ 1
  tie1 : 16777216 ≤ x.natAbs → x.natAbs ≤ 33554432 → (x - y).natAbs = 1 → y % 4 = 0
  four : 33554432 ≤ x.natAbs → y % 4 = 0
  near2 : x.natAbs ≤ 67108864 → (x - y).natAbs ≤ 2
  tie2 : 33554432 ≤ x.natAbs → x.natAbs ≤ 67108864 → (x - y).natAbs = 2 → y % 8 = 0

theorem IntRounds.step (h : IntRounds x y) : IntStep x y where
  exact := fun hx => by
    have := h.near (j := 0) (by omega)
    omega
  even := fun hx => by
    have := h.coarse (j := 1) (by omega)
    omega
  near1 := fun hx => by
    have := h.near (j := 1) (by omega)
    omega
  tie1 := fun hlo hhi he => by
    have := h.tie (j := 1) (by omega) (by omega) (by omega)
    omega
  four := fun hx => by
    have := h.coarse (j := 2) (by omega)
    omega
  near2 := fun hx => by
    have := h.near (j := 2) (by omega)
    omega
  tie2 := fun hlo hhi he => by
    have := h.tie (j := 2) (by omega) (by omega) (by omega)
    omega

theorem IntStep.even_of_even (h : IntStep x y) (hx : x % 2 = 0) : y % 2 = 0 := by
  rcases le_total x.natAbs 16777216 with hle | hge
  · rw [h.exact hle]
    exact hx
  · exact h.even hge

theorem IntStep.exact_of_even (h : IntStep x y) (hx : x % 2 = 0) (hle : x.natAbs ≤ 33554432) :
    y = x := by
  have := h.near1 hle
  have := h.even_of_even hx
  omega

end IntRounds

/-- The values of the chain for integers. -/
structure IntChain (a b s e u v w t : ℤ) : Prop where
  sum : IntRounds (a + b) s
  twice : IntRounds (s + a) e
  back : IntRounds (s - e) u
  rest : IntRounds (a - u) v
  other : IntRounds (b - e) w
  total : IntRounds (w + v) t

theorem exists_intChain (a b : ℤ) : ∃ s e u v w t, IntChain a b s e u v w t := by
  obtain ⟨s, hs⟩ := exists_intRounds (a + b)
  obtain ⟨e, he⟩ := exists_intRounds (s + a)
  obtain ⟨u, hu⟩ := exists_intRounds (s - e)
  obtain ⟨v, hv⟩ := exists_intRounds (a - u)
  obtain ⟨w, hw⟩ := exists_intRounds (b - e)
  obtain ⟨t, ht⟩ := exists_intRounds (w + v)
  exact ⟨s, e, u, v, w, t, hs, he, hu, hv, hw, ht⟩

section IntChain

variable {a b s e u v w t : ℤ}

theorem IntChain.keeps_iff (h : IntChain a b s e u v w t) :
    SumKeepsError (a : ℚ) b ↔ t = a + b - s := by
  have hs : nearestFloat 24 ((a : ℚ) + b) = s := by exact_mod_cast h.sum
  have he : nearestFloat 24 ((s : ℚ) + a) = e := by exact_mod_cast h.twice
  have hu : nearestFloat 24 ((s : ℚ) - e) = u := by exact_mod_cast h.back
  have hv : nearestFloat 24 ((a : ℚ) - u) = v := by exact_mod_cast h.rest
  have hw : nearestFloat 24 ((b : ℚ) - e) = w := by exact_mod_cast h.other
  have ht : nearestFloat 24 ((w : ℚ) + v) = t := by exact_mod_cast h.total
  simp only [SumKeepsError, sumError, hs, he, hu, hv, hw, ht]
  exact_mod_cast Iff.rfl

/-- The exponents are the same and the sum is odd. -/
theorem IntChain.same_exp (h : IntChain a b s e u v w t) (ha : 8388608 ≤ a) (ha' : a < 16777216)
    (hb : 8388608 ≤ b) (hb' : b < 16777216) (hodd : (a + b) % 2 = 1) :
    t = a + b - s ↔ a = 8388608 ∧ b % 4 = 1 := by
  have hs := h.sum.step
  have hs1 := hs.near1 (by omega)
  have hs2 := hs.even (by omega)
  have hs4 := hs.tie1 (by omega) (by omega) (by omega)
  have he := h.twice.step
  have he1 := he.near2 (by omega)
  have he2 := he.even (by omega)
  -- e is even and close to s + a, so its distance to s is exact
  have hu := h.back.step.exact_of_even (by omega) (by omega)
  subst hu
  rcases eq_or_ne a 8388608 with rfl | hne
  · have he3 : e = s + 8388608 := he.exact_of_even (by omega) (by omega)
    subst he3
    have hv := h.rest.step.exact (by omega)
    subst hv
    have hw := h.other.step
    have ht := h.total.step
    by_cases hb4 : b % 4 = 1
    · have hw' := hw.exact (by omega)
      subst hw'
      have ht' := ht.exact (by omega)
      omega
    · have hw1 := hw.even (by omega)
      have ht' := ht.even_of_even (by omega)
      omega
  · have hv := h.rest.step.even (by omega)
    have hw := h.other.step.even (by omega)
    have ht := h.total.step.even_of_even (by omega)
    omega

/-- The exponent of `b` is lower, and the sum is odd and needs one bit more. -/
theorem IntChain.low_exp (h : IntChain a b s e u v w t) (ha : a < 16777216) (hb : b < 8388608)
    (hbig : 16777216 < a + b) (hodd : (a + b) % 2 = 1) : t ≠ a + b - s := by
  have hs1 := h.sum.step.near1 (by omega)
  have hs2 := h.sum.step.even (by omega)
  have he1 := h.twice.step.near2 (by omega)
  have he2 := h.twice.step.even (by omega)
  have hu := h.back.step.exact_of_even (by omega) (by omega)
  have hv := h.rest.step.even (by omega)
  have hw := h.other.step.even (by omega)
  have ht := h.total.step.even_of_even (by omega)
  omega

/-- The sum is exact, and so is the distance to the sum. -/
theorem IntChain.exact_sum (h : IntChain a b s e u v w t) (hs : s = a + b) (hu : u = s - e) :
    t = a + b - s := by
  have hneg : nearestFloat 24 ((b - e : ℤ) : ℚ) = (-v : ℤ) := by
    have hv := h.rest
    rw [IntRounds] at hv
    rw [show b - e = -(a - u) by omega, Int.cast_neg, nearestFloat_neg, hv, Int.cast_neg]
  have hw : w = -v := by exact_mod_cast h.other.symm.trans hneg
  have ht := h.total.step.exact (by omega)
  omega

/-- Twice `a` is 1 off in `e`, and the distance from `e` to the sum needs 25 bits. -/
theorem IntChain.off_by_one (h : IntChain a b s e u v w t) {d : ℤ} (hd : d = 1 ∨ d = -1)
    (ha : 16777216 ≤ a) (ha' : a < 33554432) (heven : a % 2 = 0) (hs : s = a + b)
    (he : e = s + a + d) (hgt : 16777216 < a + d) : t = a + b - s ↔ a % 4 = 0 := by
  have hu : u % 4 = 0 ∧ (u + (a + d)).natAbs ≤ 1 := by
    have hu := h.back.step
    rw [show s - e = -(a + d) by omega] at hu
    have hu1 := hu.near1 (by omega)
    have hu2 := hu.even (by omega)
    exact ⟨hu.tie1 (by omega) (by omega) (by omega), by omega⟩
  have hw : w = -(2 * a) := by
    have hw := h.other.step
    rw [show b - e = -(2 * a + d) by omega] at hw
    have hw1 := hw.near2 (by omega)
    have hw2 := hw.four (by omega)
    omega
  have hv := h.rest.step
  have ht := h.total.step.exact
  by_cases hmod : a % 4 = 0
  · obtain rfl : u = -a := by omega
    have hv1 := hv.near2 (by omega)
    have hv2 := hv.four (by omega)
    obtain rfl : v = 2 * a := by omega
    have ht' := ht (by omega)
    omega
  · -- what is left of a is doubled and rounded away from 2 * a
    obtain rfl : u = -(a + 2 * d) := by omega
    have hv1 := hv.near2 (by omega)
    have hv2 := hv.four (by omega)
    have hv3 := hv.tie2 (by omega) (by omega) (by omega)
    obtain rfl : v = 2 * a + 4 * d := by omega
    have ht' := ht (by omega)
    omega

/-- In units of half of the last bit of `a`: the sum is exact and `b` is odd. -/
theorem IntChain.half (h : IntChain a b s e u v w t) (ha : 16777216 ≤ a) (ha' : a < 33554432)
    (heven : a % 2 = 0) (hodd : b % 2 = 1) (hb : b.natAbs < 16777216)
    (hsum : (a + b).natAbs < 16777216) : t = a + b - s ↔ a % 4 = 0 := by
  have hs := h.sum.step.exact (by omega)
  have hd : e - (s + a) = 1 ∨ e - (s + a) = -1 := by
    have he1 := h.twice.step.near1
    have he2 := h.twice.step.near2 (by omega)
    have he3 := h.twice.step.even (by omega)
    have he4 := h.twice.step.four
    omega
  rcases le_or_gt (s - e).natAbs 16777216 with hle | hgt
  · have ht := h.exact_sum hs (h.back.step.exact hle)
    omega
  · exact h.off_by_one hd ha ha' heven hs (by omega) (by omega)

/-- The exponent of `b` is higher; `s` and `e` are what `b` and `s` are moved to by `a`. -/
theorem IntChain.high_exp (h : IntChain a b s e u v w t) (ha : 8388608 ≤ a) (ha' : a < 16777216)
    (hb : b % 2 = 0) (hbig : 16777216 < (a + b).natAbs)
    (hs : s = b ∨ (8388608 < a → b + 8388608 ≤ s)) (hs' : b ≤ s ∧ s ≤ b + 16777216)
    (he : e = s ∨ (8388608 < a → s + 8388608 ≤ e)) (he' : s ≤ e ∧ e ≤ s + 16777216) :
    t = a + b - s ↔ a % 2 = 0 ∨ e = s := by
  have hs2 := h.sum.step.even (by omega)
  have hu := h.back.step.exact (by omega)
  subst hu
  by_cases heven : a % 2 = 0
  · have he2 := h.twice.step.even_of_even (by omega)
    have hv := h.rest.step.exact_of_even (by omega) (by omega)
    have hw := h.other.step.exact_of_even (by omega) (by omega)
    have ht := h.total.step.exact (by omega)
    omega
  · rcases eq_or_ne e s with rfl | hne
    · have hv := h.rest.step.exact (by omega)
      have hw := h.other.step.exact (by omega)
      have ht := h.total.step.exact (by omega)
      omega
    · -- one of the two differences is odd and needs 25 bits
      have hv1 := h.rest.step.near1 (by omega)
      have hv2 := h.rest.step.even
      have hw1 := h.other.step.near1 (by omega)
      have hw2 := h.other.step.even
      by_cases hodd : e % 2 = 0
      · have hw := h.other.step.exact_of_even (by omega) (by omega)
        have ht := h.total.step.exact_of_even (by omega) (by omega)
        omega
      · have hsmall : (s + a).natAbs < 16777216 := by
          by_contra hge
          exact hodd (h.twice.step.even (by omega))
        have he3 := h.twice.step.exact (by omega)
        have hv := h.rest.step.exact_of_even (by omega) (by omega)
        have ht := h.total.step.exact_of_even (by omega) (by omega)
        omega

end IntChain

end LibCC
