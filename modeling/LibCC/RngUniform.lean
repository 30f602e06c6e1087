import Mathlib

/-! The integer ranges of cc_rngUniform.c. The generator pcg32 comes from elsewhere: what it
draws below a bound is a parameter, and it divides by the bound. -/

namespace LibCC

inductive RngFault where
  | divideByZero
  | signedOverflow
  deriving DecidableEq, Repr

variable {Rng : Type}

def pcg32BoundedrandR (boundedrand : Rng → UInt32 → UInt32 × Rng) (rng : Rng) (bound : UInt32) :
    Except RngFault (UInt32 × Rng) :=
  if bound = 0 then .error .divideByZero else .ok (boundedrand rng bound)

def intMin : Int := -2 ^ 31
def intMax : Int := 2 ^ 31 - 1

/-- The result of an int operation, which is undefined when it overflows. -/
def intResult (v : Int) : Except RngFault Int32 :=
  if intMin ≤ v ∧ v ≤ intMax then .ok (Int32.ofInt v) else .error .signedOverflow

def rngUniformRand2U (boundedrand : Rng → UInt32 → UInt32 × Rng) (self : Rng)
    (min max : UInt32) : Except RngFault (UInt32 × Rng) := do
  let bound := max - min + 1
  let (rand, self) ← pcg32BoundedrandR boundedrand self bound
  return (rand + min, self)

def rngUniformRand2I (boundedrand : Rng → UInt32 → UInt32 × Rng) (self : Rng)
    (min max : Int32) : Except RngFault (Int32 × Rng) := do
  let diff ← intResult (max.toInt - min.toInt)
  let count ← intResult (diff.toInt + 1)
  let bound := count.toUInt32
  let (rand, self) ← pcg32BoundedrandR boundedrand self bound
  let value ← intResult (rand.toInt32.toInt + min.toInt)
  return (value, self)

/-- What pcg32 promises of a draw below a bound that is not zero. -/
def BoundedDraw (boundedrand : Rng → UInt32 → UInt32 × Rng) : Prop :=
  ∀ rng bound, 0 < bound → (boundedrand rng bound).1 < bound

/-- Every draw gives a value of the range, and every value of the range comes from some draw. -/
structure DrawsExactly {α : Type} (rand : (Rng → UInt32 → UInt32 × Rng) → Rng →
    Except RngFault (α × Rng)) (range : α → Prop) : Prop where
  sound : ∀ boundedrand, BoundedDraw boundedrand → ∀ self, ∃ value self',
    rand boundedrand self = .ok (value, self') ∧ range value
  onto : ∀ value, range value → ∀ self, ∃ boundedrand, BoundedDraw boundedrand ∧
    ∃ self', rand boundedrand self = .ok (value, self')

def Rand2UCovers (Rng : Type) (min max : UInt32) : Prop :=
  DrawsExactly (fun (boundedrand : Rng → UInt32 → UInt32 × Rng) self =>
    rngUniformRand2U boundedrand self min max) (fun value => min ≤ value ∧ value ≤ max)

def Rand2ICovers (Rng : Type) (min max : Int32) : Prop :=
  DrawsExactly (fun (boundedrand : Rng → UInt32 → UInt32 × Rng) self =>
    rngUniformRand2I boundedrand self min max)
    (fun value => min.toInt ≤ value.toInt ∧ value.toInt ≤ max.toInt)

/-- The generator whose next draw below `bound` is `r`. -/
def drawing (r : UInt32) (rng : Rng) (bound : UInt32) : UInt32 × Rng :=
  (if r < bound then r else 0, rng)

theorem drawing_bounded (r : UInt32) : BoundedDraw (drawing r : Rng → UInt32 → UInt32 × Rng) := by
  intro rng bound hb
  simp only [drawing]
  split
  · assumption
  · exact hb

theorem intResult_ok {v : Int} (h : intMin ≤ v ∧ v ≤ intMax) :
    ∃ r, intResult v = .ok r ∧ r.toInt = v := by
  refine ⟨Int32.ofInt v, if_pos h, ?_⟩
  have hv := h
  simp only [intMin, intMax] at hv
  exact Int32.toInt_ofInt_of_le (by omega) (by omega)

theorem intResult_error {v : Int} (h : ¬ (intMin ≤ v ∧ v ≤ intMax)) :
    intResult v = .error .signedOverflow := if_neg h

theorem toNat_toUInt32_of_nonneg {x : Int32} (h : 0 ≤ x.toInt) :
    (x.toUInt32.toNat : Int) = x.toInt := by
  have hx : x.toInt = x.toUInt32.toBitVec.toInt := rfl
  rw [hx, BitVec.toInt_eq_toNat_cond] at h ⊢
  have hn : x.toUInt32.toBitVec.toNat = x.toUInt32.toNat := rfl
  rw [hn] at h ⊢
  have := x.toUInt32.toNat_lt
  split at h <;> split <;> omega

theorem toInt_toInt32_of_lt {r : UInt32} (h : (r.toNat : Int) ≤ intMax) :
    r.toInt32.toInt = r.toNat := by
  have hr : r.toInt32.toInt = r.toBitVec.toInt := rfl
  have hn : r.toBitVec.toNat = r.toNat := rfl
  simp only [intMax] at h
  rw [hr, BitVec.toInt_eq_toNat_cond, hn, if_pos (by omega)]

section Unsigned

variable {min max : UInt32}

/-- The bound is the size of the range, which is zero for the range of all uint32_t. -/
theorem rand2U_bound (hle : min ≤ max) (h : 0 < min ∨ max < 4294967295) :
    (max - min + 1).toNat = max.toNat - min.toNat + 1 := by
  have hle' := UInt32.le_iff_toNat_le.mp hle
  have hmax := max.toNat_lt
  have hsub : (max - min).toNat = max.toNat - min.toNat := UInt32.toNat_sub_of_le _ _ hle
  have hlt : 0 < min.toNat ∨ max.toNat < 4294967295 := by
    rcases h with h | h
    · exact .inl (UInt32.lt_iff_toNat_lt.mp h)
    · exact .inr (UInt32.lt_iff_toNat_lt.mp h)
  rw [UInt32.toNat_add, hsub]
  apply Nat.mod_eq_of_lt
  have h1 : (1 : UInt32).toNat = 1 := rfl
  omega

theorem rngUniformRand2U_draws (hle : min ≤ max) (h : 0 < min ∨ max < 4294967295) :
    Rand2UCovers Rng min max := by
  have hle' := UInt32.le_iff_toNat_le.mp hle
  have hmax := max.toNat_lt
  have hbound := rand2U_bound hle h
  have hne : max - min + 1 ≠ 0 := by
    intro he
    rw [he] at hbound
    exact absurd hbound (by show 0 ≠ _; omega)
  have hrun : ∀ (boundedrand : Rng → UInt32 → UInt32 × Rng) (self : Rng),
      rngUniformRand2U boundedrand self min max =
        .ok ((boundedrand self (max - min + 1)).1 + min, (boundedrand self (max - min + 1)).2) := by
    intro boundedrand self
    simp only [rngUniformRand2U, pcg32BoundedrandR, if_neg hne]
    rfl
  constructor
  · intro boundedrand hb self
    refine ⟨_, _, hrun boundedrand self, ?_⟩
    have hr := UInt32.lt_iff_toNat_lt.mp (hb self (max - min + 1) (UInt32.pos_iff_ne_zero.mpr hne))
    have hadd := UInt32.toNat_add (boundedrand self (max - min + 1)).1 min
    rw [Nat.mod_eq_of_lt (by omega)] at hadd
    rw [UInt32.le_iff_toNat_le, UInt32.le_iff_toNat_le, hadd]
    omega
  · rintro value ⟨hlo, hhi⟩ self
    have hlo' := UInt32.le_iff_toNat_le.mp hlo
    have hhi' := UInt32.le_iff_toNat_le.mp hhi
    have hsub : (value - min).toNat = value.toNat - min.toNat := UInt32.toNat_sub_of_le _ _ hlo
    have hr : value - min < max - min + 1 := by
      rw [UInt32.lt_iff_toNat_lt, hsub, hbound]
      omega
    refine ⟨drawing (value - min), drawing_bounded _, self, ?_⟩
    show rngUniformRand2U _ self min max = _
    rw [hrun]
    simp only [drawing, if_pos hr, UInt32.sub_add_cancel]

theorem rngUniformRand2U_full [Inhabited Rng] : ¬ Rand2UCovers Rng 0 4294967295 := by
  intro hd
  obtain ⟨value, self', hrun, -⟩ := hd.sound (drawing 0) (drawing_bounded 0) default
  exact absurd hrun (by simp [rngUniformRand2U, pcg32BoundedrandR, bind, Except.bind])

end Unsigned

section Signed

variable {min max : Int32}

theorem rngUniformRand2I_overflow (boundedrand : Rng → UInt32 → UInt32 × Rng) (self : Rng)
    (h : intMax ≤ max.toInt - min.toInt) :
    rngUniformRand2I boundedrand self min max = .error .signedOverflow := by
  have hmin : intMin = -2 ^ 31 := rfl
  have hmax : intMax = 2 ^ 31 - 1 := rfl
  unfold rngUniformRand2I
  by_cases hd : max.toInt - min.toInt ≤ intMax
  · obtain ⟨diff, hdiff, hval⟩ := intResult_ok (v := max.toInt - min.toInt) ⟨by omega, hd⟩
    rw [hdiff]
    show (intResult (diff.toInt + 1) >>= _) = _
    rw [intResult_error (by omega)]
    rfl
  · rw [intResult_error (by omega)]
    rfl

/-- With the count of the range in an int, no operation overflows. -/
theorem rngUniformRand2I_eq (boundedrand : Rng → UInt32 → UInt32 × Rng) (self : Rng)
    (hle : min.toInt ≤ max.toInt) (h : max.toInt - min.toInt < intMax) :
    ∃ bound : UInt32, (bound.toNat : Int) = max.toInt - min.toInt + 1 ∧
      (bound.toNat : Int) ≤ intMax ∧
      rngUniformRand2I boundedrand self min max =
        (intResult ((boundedrand self bound).1.toInt32.toInt + min.toInt)).map
          fun value => (value, (boundedrand self bound).2) := by
  have hmin : intMin = -2 ^ 31 := rfl
  have hmax : intMax = 2 ^ 31 - 1 := rfl
  obtain ⟨diff, hdiff, hdval⟩ := intResult_ok (v := max.toInt - min.toInt) (by omega)
  obtain ⟨count, hcount, hcval⟩ := intResult_ok (v := diff.toInt + 1) (by omega)
  have hbound := toNat_toUInt32_of_nonneg (x := count) (by omega)
  have hne : count.toUInt32 ≠ 0 := by
    intro he
    rw [he] at hbound
    exact absurd hbound (by show (0 : Int) ≠ _; omega)
  refine ⟨count.toUInt32, by omega, by omega, ?_⟩
  simp only [rngUniformRand2I, hdiff, hcount, pcg32BoundedrandR, bind, Except.bind, if_neg hne]
  cases intResult ((boundedrand self count.toUInt32).1.toInt32.toInt + min.toInt) <;> rfl

theorem rngUniformRand2I_draws (hle : min.toInt ≤ max.toInt)
    (h : max.toInt - min.toInt < intMax) :
    Rand2ICovers Rng min max := by
  have hlow : intMin ≤ min.toInt := Int32.le_toInt min
  have hhigh : max.toInt < 2 ^ 31 := Int32.toInt_lt max
  have hmax : intMax = 2 ^ 31 - 1 := rfl
  constructor
  · intro boundedrand hb self
    obtain ⟨bound, hcount, hfits, hrun⟩ := rngUniformRand2I_eq boundedrand self hle h
    have hpos : 0 < bound := by
      rw [UInt32.lt_iff_toNat_lt]
      show 0 < bound.toNat
      omega
    have hr := UInt32.lt_iff_toNat_lt.mp (hb self bound hpos)
    have hint := toInt_toInt32_of_lt (r := (boundedrand self bound).1) (by omega)
    obtain ⟨value, hvalue, hval⟩ := intResult_ok
      (v := (boundedrand self bound).1.toInt32.toInt + min.toInt) (by omega)
    refine ⟨value, (boundedrand self bound).2, ?_, by omega⟩
    show rngUniformRand2I boundedrand self min max = _
    rw [hrun, hvalue]
    rfl
  · rintro value ⟨hlo, hhi⟩ self
    obtain ⟨r, hr⟩ : ∃ r : UInt32, (r.toNat : Int) = value.toInt - min.toInt :=
      ⟨UInt32.ofNat (value.toInt - min.toInt).toNat, by
        rw [UInt32.toNat_ofNat_of_lt' (by show _ < 2 ^ 32; omega)]; omega⟩
    obtain ⟨bound, hcount, hfits, hrun⟩ := rngUniformRand2I_eq (drawing r) self hle h
    have hlt : r < bound := by
      rw [UInt32.lt_iff_toNat_lt]
      omega
    refine ⟨drawing r, drawing_bounded r, self, ?_⟩
    show rngUniformRand2I (drawing r) self min max = _
    rw [hrun]
    simp only [drawing, if_pos hlt, toInt_toInt32_of_lt (r := r) (by omega), hr]
    rw [Int.sub_add_cancel, intResult, if_pos ⟨by omega, by omega⟩, Int32.ofInt_toInt]
    rfl

theorem rngUniformRand2I_wide [Inhabited Rng] (h : intMax ≤ max.toInt - min.toInt) :
    ¬ Rand2ICovers Rng min max := by
  intro hd
  obtain ⟨value, self', hrun, -⟩ := hd.sound (drawing 0) (drawing_bounded 0) default
  have hover := rngUniformRand2I_overflow (drawing 0 : Rng → _) default h
  exact absurd (hover.symm.trans hrun) (by simp)

end Signed

/-- The integer draws cover their range exactly unless its size is not a value of the type in
which the bound is computed. -/
theorem rngUniform_range [Inhabited Rng] :
    (∀ min max : UInt32, min ≤ max →
      (Rand2UCovers Rng min max ↔ 0 < min ∨ max < 4294967295)) ∧
    ∀ min max : Int32, min.toInt ≤ max.toInt →
      (Rand2ICovers Rng min max ↔ max.toInt - min.toInt < intMax) := by
  constructor
  · intro min max hle
    refine ⟨fun hd => ?_, rngUniformRand2U_draws hle⟩
    by_contra hn
    obtain ⟨rfl, rfl⟩ : min = 0 ∧ max = 4294967295 := by
      simp only [UInt32.lt_iff_toNat_lt, not_or, not_lt] at hn
      have h0 : (0 : UInt32).toNat = 0 := rfl
      have hm : (4294967295 : UInt32).toNat = 4294967295 := rfl
      have hlt := max.toNat_lt
      exact ⟨UInt32.toNat_inj.mp (by omega), UInt32.toNat_inj.mp (by omega)⟩
    exact rngUniformRand2U_full hd
  · intro min max hle
    refine ⟨fun hd => ?_, rngUniformRand2I_draws hle⟩
    by_contra hn
    exact rngUniformRand2I_wide (Int.not_lt.mp hn) hd

/-- A die in both types. -/
theorem rngUniform_range_die :
    Rand2UCovers Unit 1 6 ∧ Rand2ICovers Unit 1 6 :=
  ⟨(rngUniform_range.1 1 6 (by decide)).mpr (by decide),
    (rngUniform_range.2 1 6 (by decide)).mpr (by decide)⟩

/-- The full range of uint32_t has the bound 0, and the size of a half range of int overflows. -/
theorem rngUniform_range_full :
    ¬ Rand2UCovers Unit 0 4294967295 ∧ ¬ Rand2ICovers Unit 0 Int32.maxValue :=
  ⟨rngUniformRand2U_full, rngUniformRand2I_wide (by decide)⟩

end LibCC
