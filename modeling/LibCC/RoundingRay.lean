import LibCC.NearestFloat

/-! Which numbers are rounded to something below a bound. They lie below a bound themselves, half
a step under a number of `p` bits, and the bound belongs to them when the tie goes down. -/

namespace LibCC

theorem nearestEven_lt_iff {q : ℚ} {n : ℤ} :
    nearestEven q < n ↔ q < n - 1 / 2 ∨ n % 2 = 1 ∧ q = n - 1 / 2 := by
  obtain ⟨hnear, htie⟩ := nearestEven_roundsTo q
  generalize nearestEven q = m at hnear htie
  obtain ⟨hlo, hhi⟩ := abs_le.mp hnear
  constructor
  · intro hmn
    have hm : (m : ℚ) ≤ n - 1 := by exact_mod_cast Int.le_sub_one_of_lt hmn
    rcases lt_or_eq_of_le (by linarith : q ≤ n - 1 / 2) with hlt | heq
    · exact .inl hlt
    · have hnm : (m : ℚ) = (n - 1 : ℤ) := by
        push_cast
        linarith
      have hm' : m = n - 1 := by exact_mod_cast hnm
      have heven := htie (by rw [hnm, heq, abs_of_nonneg] <;> push_cast <;> linarith)
      exact .inr ⟨by omega, heq⟩
  · rintro (hlt | ⟨hodd, heq⟩)
    · have : (m : ℚ) < n := by linarith
      exact_mod_cast this
    · have hle : (m : ℚ) ≤ n := by linarith
      apply lt_of_le_of_ne (by exact_mod_cast hle)
      rintro rfl
      have := htie (by rw [heq, abs_of_nonpos] <;> linarith)
      omega

/-- The numbers below a bound, with the bound or without it. -/
structure Ray where
  bound : ℚ
  closed : Bool

namespace Ray

variable {ray : Ray} {x c : ℚ}

def Has (ray : Ray) (x : ℚ) : Prop := x < ray.bound ∨ ray.closed = true ∧ x = ray.bound

instance : Decidable (ray.Has x) := by
  unfold Has
  infer_instance

def add (ray : Ray) (c : ℚ) : Ray := ⟨ray.bound + c, ray.closed⟩

def mul (ray : Ray) (c : ℚ) : Ray := ⟨ray.bound * c, ray.closed⟩

theorem has_add : (ray.add c).Has (x + c) ↔ ray.Has x := by
  simp [Has, add]

theorem has_mul (hc : 0 < c) : (ray.mul c).Has (x * c) ↔ ray.Has x := by
  simp [Has, mul, hc, hc.ne']

end Ray

section Cut

variable {p : ℕ} {f x : ℚ} {n e : ℤ}

/-- What is rounded below n * 2^e, where the numbers of `p` bits are 2^e apart. -/
def cut (n e : ℤ) : Ray := ⟨(n - 1 / 2) * 2 ^ e, decide (n % 2 = 1)⟩

/-- The exponent of the step from `f` to the number of `p` bits below it. -/
def stepBelow (p : ℕ) (f : ℚ) : ℤ := if 0 < f then Int.clog 2 f - p else lastExp p f

/-- What is rounded below `f`. -/
def rayBelow (p : ℕ) (f : ℚ) : Ray :=
  if f = 0 then ⟨0, false⟩ else cut ⌊f / 2 ^ stepBelow p f⌋ (stepBelow p f)

/-- The step below n * 2^e is 2^e, on either side of 0. -/
def StepAt (p : ℕ) (n : ℤ) : Prop :=
  2 ^ (p - 1) ≤ n - 1 ∧ n ≤ 2 ^ p ∨ -2 ^ p ≤ n - 1 ∧ n ≤ -2 ^ (p - 1)

theorem StepAt.abs_le {q : ℚ} (h : StepAt p n) (hlo : (n - 1 : ℤ) ≤ q) (hhi : q ≤ n) :
    2 ^ (p - 1) ≤ |q| ∧ |q| ≤ 2 ^ p := by
  have hpos : (0 : ℚ) < 2 ^ (p - 1) := by positivity
  rcases h with ⟨h1, h2⟩ | ⟨h1, h2⟩
  · have h1' : (2 : ℚ) ^ (p - 1) ≤ (n - 1 : ℤ) := by exact_mod_cast h1
    have h2' : (n : ℚ) ≤ 2 ^ p := by exact_mod_cast h2
    rw [abs_of_pos (by linarith)]
    constructor <;> linarith
  · have h1' : -(2 : ℚ) ^ p ≤ (n - 1 : ℤ) := by exact_mod_cast h1
    have h2' : (n : ℚ) ≤ -2 ^ (p - 1) := by exact_mod_cast h2
    rw [abs_of_neg (by linarith)]
    constructor <;> linarith

theorem zpow_two_bits (p : ℕ) (e : ℤ) : (2 : ℚ) ^ (e + p) = 2 ^ p * 2 ^ e := by
  rw [add_comm, zpow_two_add, zpow_natCast]

theorem zpow_two_bits_pred (hp : 0 < p) (e : ℤ) :
    (2 : ℚ) ^ (e + p - 1) = 2 ^ (p - 1) * 2 ^ e := by
  rw [← zpow_two_bits]
  congr 1
  push_cast [Nat.cast_sub hp]
  ring

theorem zpow_two_le_abs {q : ℚ} (hp : 0 < p) (e : ℤ) (h : 2 ^ (p - 1) ≤ |q| ∧ |q| ≤ 2 ^ p) :
    2 ^ (e + p - 1) ≤ |q * 2 ^ e| ∧ |q * 2 ^ e| ≤ 2 ^ (e + p) := by
  have he : (0 : ℚ) ≤ 2 ^ e := (zpow_two_pos e).le
  rw [abs_mul_zpow_two, zpow_two_bits_pred hp, zpow_two_bits]
  exact ⟨mul_le_mul_of_nonneg_right h.1 he, mul_le_mul_of_nonneg_right h.2 he⟩

theorem nearestFloat_lt_iff_cut (hp : 0 < p) (hn : StepAt p n) :
    nearestFloat p x < n * 2 ^ e ↔ (cut n e).Has x := by
  have he : (0 : ℚ) < 2 ^ e := zpow_two_pos e
  have hfloat {k : ℤ} (hlo : n - 1 ≤ k) (hhi : k ≤ n) : IsFloat p ((k : ℚ) * 2 ^ e) :=
    isFloat_of_onGrid hp ⟨k, rfl⟩ (zpow_two_le_abs hp e
      (hn.abs_le (by exact_mod_cast hlo) (by exact_mod_cast hhi))).2
  obtain ⟨q, rfl⟩ : ∃ q, x = q * 2 ^ e := ⟨x / 2 ^ e, (div_mul_cancel₀ x he.ne').symm⟩
  have hcut : (cut n e).Has (q * 2 ^ e) ↔ q < n - 1 / 2 ∨ n % 2 = 1 ∧ q = n - 1 / 2 := by
    simp [Ray.Has, cut, he, he.ne']
  rw [hcut]
  rcases le_or_gt (n : ℚ) q with hge | hlt
  · -- from n * 2^e on nothing is rounded below it
    have := le_nearestFloat hp (hfloat (by omega) le_rfl) (mul_le_mul_of_nonneg_right hge he.le)
    constructor
    · intro h
      linarith
    · rintro (h | ⟨-, h⟩) <;> linarith
  · rcases le_or_gt q (n - 1 : ℤ) with hle | hgt
    · have hround := nearestFloat_le hp (hfloat le_rfl (by omega))
        (mul_le_mul_of_nonneg_right hle he.le)
      have hstep : ((n - 1 : ℤ) : ℚ) * 2 ^ e < n * 2 ^ e :=
        mul_lt_mul_of_pos_right (by push_cast; linarith) he
      push_cast at hle
      exact ⟨fun _ => .inl (by linarith), fun _ => by linarith⟩
    · -- in between the grid is that of 2^e
      obtain ⟨hbig, hsmall⟩ := zpow_two_le_abs hp e (hn.abs_le hgt.le hlt.le)
      rw [nearestFloat_eq hp hbig hsmall, mul_div_cancel_right₀ _ he.ne',
        mul_lt_mul_iff_left₀ he, Int.cast_lt, nearestEven_lt_iff]

theorem stepBelow_spec (hp : 0 < p) (hf : IsFloat p f) (hne : f ≠ 0) :
    ∃ n : ℤ, f = n * 2 ^ stepBelow p f ∧ StepAt p n := by
  unfold stepBelow
  split_ifs with hpos
  · have hlo : (2 : ℚ) ^ (Int.clog 2 f - p + p - 1) < f := by
      rw [sub_add_cancel]
      exact Int.zpow_pred_clog_lt_self (by norm_num) hpos
    have hhi : f ≤ (2 : ℚ) ^ (Int.clog 2 f - p + p) := by
      rw [sub_add_cancel]
      exact Int.self_le_zpow_clog (by norm_num) f
    generalize Int.clog 2 f - p = e at hlo hhi
    obtain ⟨n, rfl⟩ := hf.onGrid (hlo.le.trans (le_abs_self f))
    rw [zpow_two_bits_pred hp, mul_lt_mul_iff_left₀ (zpow_two_pos e)] at hlo
    rw [zpow_two_bits, mul_le_mul_iff_left₀ (zpow_two_pos e)] at hhi
    have hlo' : 2 ^ (p - 1) < n := by exact_mod_cast hlo
    exact ⟨n, rfl, .inl ⟨by omega, by exact_mod_cast hhi⟩⟩
  · have hlo := le_abs_of_lastExp p hne
    have hhi := abs_lt_of_lastExp p f
    have hgrid := hf.onGrid_lastExp
    generalize lastExp p f = e at hlo hhi hgrid
    obtain ⟨n, rfl⟩ := hgrid
    have he := zpow_two_pos (K := ℚ) e
    have hn : n < 0 := by
      by_contra hge
      have hge' : (0 : ℚ) ≤ n := by exact_mod_cast not_lt.mp hge
      exact hne (le_antisymm (not_lt.mp hpos) (mul_nonneg hge' he.le))
    rw [zpow_two_bits_pred hp, abs_mul_zpow_two, mul_le_mul_iff_left₀ he] at hlo
    rw [zpow_two_bits, abs_mul_zpow_two, mul_lt_mul_iff_left₀ he] at hhi
    have hlo' : 2 ^ (p - 1) ≤ |n| := by exact_mod_cast hlo
    have hhi' : |n| < 2 ^ p := by exact_mod_cast hhi
    rw [abs_of_neg hn] at hlo' hhi'
    exact ⟨n, rfl, .inr ⟨by omega, by omega⟩⟩

theorem nearestFloat_neg_iff (hp : 0 < p) : nearestFloat p x < 0 ↔ x < 0 := by
  have hzero : IsFloat p (0 : ℚ) := ⟨0, 0, by simp, by simp⟩
  constructor
  · intro h
    by_contra hx
    exact absurd (le_nearestFloat hp hzero (not_lt.mp hx)) (not_le.mpr h)
  · intro hx
    have hlarge := le_abs_of_lastExp p hx.ne
    rw [abs_of_neg hx] at hlarge
    have hfloat : IsFloat p (-(2 : ℚ) ^ (lastExp p x + p - 1)) := by
      apply IsFloat.neg
      exact isFloat_of_onGrid hp (OnGrid.zpow (le_refl _)) (by
        rw [abs_of_pos (zpow_two_pos _)]
        exact zpow_two_le (by omega))
    have hle := nearestFloat_le hp hfloat (le_neg_of_le_neg hlarge)
    have := zpow_two_pos (K := ℚ) (lastExp p x + p - 1)
    linarith

theorem nearestFloat_pos_iff (hp : 0 < p) : 0 < nearestFloat p x ↔ 0 < x := by
  have h := nearestFloat_neg_iff (x := -x) hp
  rwa [nearestFloat_neg, neg_neg_iff_pos, neg_neg_iff_pos] at h

theorem rayBelow_eq_cut (hp : 0 < p) (hf : IsFloat p f) (hne : f ≠ 0) :
    ∃ n : ℤ, f = n * 2 ^ stepBelow p f ∧ StepAt p n ∧ rayBelow p f = cut n (stepBelow p f) := by
  obtain ⟨n, hn, hstep⟩ := stepBelow_spec hp hf hne
  refine ⟨n, hn, hstep, ?_⟩
  have hfloor : ⌊f / 2 ^ stepBelow p f⌋ = n := by
    rw [(div_eq_iff (zpow_two_pos _).ne').mpr hn, Int.floor_intCast]
  rw [rayBelow, if_neg hne, hfloor]

/-- What is rounded below a number of `p` bits. -/
theorem nearestFloat_lt_iff (hp : 0 < p) (hf : IsFloat p f) :
    nearestFloat p x < f ↔ (rayBelow p f).Has x := by
  rcases eq_or_ne f 0 with rfl | hne
  · rw [nearestFloat_neg_iff hp]
    simp [Ray.Has, rayBelow]
  · obtain ⟨n, hn, hstep, hcut⟩ := rayBelow_eq_cut hp hf hne
    rw [hcut, ← nearestFloat_lt_iff_cut hp hstep, ← hn]

theorem rayBelow_bound_pos (hp : 0 < p) (hf : IsFloat p f) (hpos : 0 < f) :
    0 < (rayBelow p f).bound := by
  obtain ⟨n, hn, hstep, hcut⟩ := rayBelow_eq_cut hp hf hpos.ne'
  have he := zpow_two_pos (K := ℚ) (stepBelow p f)
  have hn0 : (0 : ℚ) < n := by
    rw [hn] at hpos
    exact pos_of_mul_pos_left hpos he.le
  have hn1 : (1 : ℚ) ≤ n := by exact_mod_cast Int.cast_pos.mp hn0
  rw [hcut]
  exact mul_pos (by linarith) he

/-- There is no number of `p` bits at the bound. -/
theorem lt_rayBelow_bound {g : ℚ} (hp : 0 < p) (hf : IsFloat p f) (hg : IsFloat p g) (hlt : g < f) :
    g < (rayBelow p f).bound := by
  have hhas : (rayBelow p f).Has g := by
    rw [← nearestFloat_lt_iff hp hf, hg.nearestFloat_eq]
    exact hlt
  rcases hhas with hbelow | ⟨hclosed, heq⟩
  · exact hbelow
  · rcases eq_or_ne f 0 with rfl | hne
    · simp [rayBelow] at hclosed
    · obtain ⟨n, -, hstep, hcut⟩ := rayBelow_eq_cut hp hf hne
      rw [hcut] at heq
      generalize stepBelow p f = e at heq
      change g = (n - 1 / 2) * 2 ^ e at heq
      have hbits := zpow_two_le_abs hp e (hstep.abs_le (q := n - 1 / 2) (by push_cast; linarith)
        (by linarith))
      obtain ⟨m, hm⟩ := hg.onGrid (hbits.1.trans_eq (congrArg abs heq.symm))
      have hmn : (m : ℚ) = n - 1 / 2 :=
        mul_right_cancel₀ (zpow_two_pos e).ne' (hm.symm.trans heq)
      have hodd : ((2 * m : ℤ) : ℚ) = (2 * n - 1 : ℤ) := by
        push_cast
        linarith
      have : 2 * m = 2 * n - 1 := by exact_mod_cast hodd
      omega

end Cut

section Unround

variable {p : ℕ} {ray : Ray} {f x : ℚ}

/-- The least number of `p` bits that is not in a ray with a positive bound. -/
def leastOutside (p : ℕ) (ray : Ray) : ℚ :=
  if ray.closed then (⌊ray.bound / 2 ^ lastExp p ray.bound⌋ + 1) * 2 ^ lastExp p ray.bound
  else ⌈ray.bound / 2 ^ (Int.clog 2 ray.bound - p)⌉ * 2 ^ (Int.clog 2 ray.bound - p)

theorem Ray.Has.mono {y : ℚ} (h : ray.Has y) (hxy : x ≤ y) : ray.Has x := by
  rcases h with hlt | ⟨hclosed, rfl⟩
  · exact .inl (hxy.trans_lt hlt)
  · rcases hxy.lt_or_eq with hlt | rfl
    · exact .inl hlt
    · exact .inr ⟨hclosed, rfl⟩

/-- The first multiple of 2^e outside is the least number of `p` bits outside. -/
theorem has_iff_lt_of_grid {n e : ℤ} (hgrid : ∀ m : ℤ, ray.Has (m * 2 ^ e) ↔ m < n)
    (hbits : ∀ x, ¬ray.Has x → 2 ^ (e + p - 1) ≤ x) (hf : IsFloat p f) :
    ray.Has f ↔ f < n * 2 ^ e := by
  constructor
  · intro h
    by_contra hge
    exact lt_irrefl n ((hgrid n).mp (h.mono (not_lt.mp hge)))
  · intro hlt
    by_contra hout
    obtain ⟨m, rfl⟩ := hf.onGrid ((hbits f hout).trans (le_abs_self f))
    have hmn := (mul_lt_mul_iff_left₀ (zpow_two_pos (K := ℚ) e)).mp hlt
    exact hout ((hgrid m).mpr (by exact_mod_cast hmn))

theorem isFloat_mul_zpow (hp : 0 < p) {n : ℤ} (e : ℤ) (hpos : 0 < n) (hn : n ≤ 2 ^ p) :
    IsFloat p ((n : ℚ) * 2 ^ e) := by
  apply isFloat_of_onGrid hp ⟨n, rfl⟩
  have hpos' : (0 : ℚ) < n := by exact_mod_cast hpos
  rw [abs_mul_zpow_two, abs_of_pos hpos', zpow_two_bits]
  exact mul_le_mul_of_nonneg_right (by exact_mod_cast hn) (zpow_two_pos e).le

theorem leastOutside_spec (hp : 0 < p) (hpos : 0 < ray.bound) :
    0 < leastOutside p ray ∧ IsFloat p (leastOutside p ray) ∧
      ∀ f, IsFloat p f → (ray.Has f ↔ f < leastOutside p ray) := by
  suffices h : ∃ n e : ℤ, leastOutside p ray = n * 2 ^ e ∧ 0 < n ∧ n ≤ 2 ^ p ∧
      (∀ m : ℤ, ray.Has (m * 2 ^ e) ↔ m < n) ∧ ∀ x, ¬ray.Has x → 2 ^ (e + p - 1) ≤ x by
    obtain ⟨n, e, hleast, hn, hle, hgrid, hbits⟩ := h
    rw [hleast]
    have hn' : (0 : ℚ) < n := by exact_mod_cast hn
    exact ⟨mul_pos hn' (zpow_two_pos e), isFloat_mul_zpow hp e hn hle,
      fun f hf => has_iff_lt_of_grid hgrid hbits hf⟩
  obtain ⟨b, closed⟩ := ray
  dsimp only at hpos
  cases closed with
  | true =>
    have hlo := le_abs_of_lastExp p hpos.ne'
    have hhi := abs_lt_of_lastExp p b
    rw [abs_of_pos hpos] at hlo hhi
    rw [leastOutside, if_pos rfl]
    generalize lastExp p b = e at hlo hhi
    have he := zpow_two_pos (K := ℚ) e
    rw [zpow_two_bits, ← div_lt_iff₀ he] at hhi
    refine ⟨⌊b / 2 ^ e⌋ + 1, e, by push_cast; rfl, ?_, ?_, ?_, ?_⟩
    · have := Int.floor_nonneg.mpr (div_pos hpos he).le
      omega
    · have : ⌊b / 2 ^ e⌋ < 2 ^ p := Int.floor_lt.mpr (by exact_mod_cast hhi)
      omega
    · intro m
      rw [Int.lt_add_one_iff, Int.le_floor, le_div_iff₀ he]
      simp [Ray.Has, le_iff_lt_or_eq]
    · intro x hx
      have hbx : b ≤ x := not_lt.mp fun hlt => hx (.inl hlt)
      exact hlo.trans hbx
  | false =>
    have hlo : (2 : ℚ) ^ (Int.clog 2 b - p + p - 1) < b := by
      rw [sub_add_cancel]
      exact Int.zpow_pred_clog_lt_self (by norm_num) hpos
    have hhi : b ≤ (2 : ℚ) ^ (Int.clog 2 b - p + p) := by
      rw [sub_add_cancel]
      exact Int.self_le_zpow_clog (by norm_num) b
    rw [leastOutside, if_neg Bool.false_ne_true]
    generalize Int.clog 2 b - p = e at hlo hhi
    have he := zpow_two_pos (K := ℚ) e
    rw [zpow_two_bits, ← div_le_iff₀ he] at hhi
    refine ⟨⌈b / 2 ^ e⌉, e, rfl, Int.ceil_pos.mpr (div_pos hpos he),
      Int.ceil_le.mpr (by exact_mod_cast hhi), ?_, ?_⟩
    · intro m
      rw [Int.lt_ceil, lt_div_iff₀ he]
      simp [Ray.Has]
    · intro x hx
      have hbx : b ≤ x := not_lt.mp fun hlt => hx (.inl hlt)
      exact hlo.le.trans hbx

/-- What is rounded into a ray with a positive bound. -/
def unround (p : ℕ) (ray : Ray) : Ray := rayBelow p (leastOutside p ray)

theorem has_nearestFloat (hp : 0 < p) (hpos : 0 < ray.bound) :
    ray.Has (nearestFloat p x) ↔ (unround p ray).Has x := by
  obtain ⟨-, hfloat, hleast⟩ := leastOutside_spec hp hpos
  rw [hleast _ (nearestFloat_isFloat hp x), nearestFloat_lt_iff hp hfloat]
  rfl

theorem unround_bound_pos (hp : 0 < p) (hpos : 0 < ray.bound) : 0 < (unround p ray).bound := by
  obtain ⟨hpos', hfloat, -⟩ := leastOutside_spec hp hpos
  exact rayBelow_bound_pos hp hfloat hpos'

end Unround

end LibCC
