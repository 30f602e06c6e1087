import LibCC.BitSmear

/-! The helpers of cc_pow2n.c. Two of them round up to a power of two by
smearing bits, one finds the exponent of a power of two by doubling; all are
described by the least exponent whose power is not below the argument. -/

namespace LibCC

open BitSmear

def nextPow2n (v : UInt32) : UInt32 :=
  let v := v - 1
  let v := v ||| v >>> 1
  let v := v ||| v >>> 2
  let v := v ||| v >>> 4
  let v := v ||| v >>> 8
  let v := v ||| v >>> 16
  v + 1

def nextPow2n64 (v : UInt64) : UInt64 :=
  let v := v - 1
  let v := v ||| v >>> 1
  let v := v ||| v >>> 2
  let v := v ||| v >>> 4
  let v := v ||| v >>> 8
  let v := v ||| v >>> 16
  let v := v ||| v >>> 32
  v + 1

/-- The doubling loop; `none` when `fuel` tests of its condition did not end it. -/
def findPow2nLoop : Nat → UInt64 → UInt64 → Int → Option (UInt64 × Int)
  | 0, _, _, _ => none
  | fuel + 1, a, b, n => if a < b then findPow2nLoop fuel (a * 2) b (n + 1) else some (a, n)

def findPow2n (fuel : Nat) (v : UInt32) : Option Int :=
  let b := v.toUInt64
  match findPow2nLoop fuel 1 b 0 with
  | none => none
  | some (a, n) => if a = b then some n else some (-1)

theorem nextPow2n_toNat (v : UInt32) :
    (nextPow2n v).toNat = (smear (v - 1).toNat 5 + 1) % 2 ^ 32 := by
  simp [nextPow2n, smear]

theorem nextPow2n64_toNat (v : UInt64) :
    (nextPow2n64 v).toNat = (smear (v - 1).toNat 6 + 1) % 2 ^ 64 := by
  simp [nextPow2n64, smear]

theorem nextPow2n_eq {v : UInt32} (h : 1 ≤ v.toNat) :
    (nextPow2n v).toNat = 2 ^ Nat.clog 2 v.toNat % 2 ^ 32 := by
  have hsub : (v - 1).toNat = v.toNat - 1 :=
    UInt32.toNat_sub_of_le v 1 (UInt32.le_iff_toNat_le.mpr h)
  have hlt := v.toNat_lt
  rw [nextPow2n_toNat, hsub, smear_pred_succ h (by omega)]

theorem nextPow2n64_eq {v : UInt64} (h : 1 ≤ v.toNat) :
    (nextPow2n64 v).toNat = 2 ^ Nat.clog 2 v.toNat % 2 ^ 64 := by
  have hsub : (v - 1).toNat = v.toNat - 1 :=
    UInt64.toNat_sub_of_le v 1 (UInt64.le_iff_toNat_le.mpr h)
  have hlt := v.toNat_lt
  rw [nextPow2n64_toNat, hsub, smear_pred_succ h (by omega)]

theorem findPow2nLoop_eq {fuel n : Nat} {a b : UInt64} (hb : b.toNat < 2 ^ 32)
    (ha : a.toNat = 2 ^ n) (hn : n ≤ Nat.clog 2 b.toNat)
    (hfuel : Nat.clog 2 b.toNat < n + fuel) :
    ∃ p : UInt64, p.toNat = 2 ^ Nat.clog 2 b.toNat ∧
      findPow2nLoop fuel a b n = some (p, (Nat.clog 2 b.toNat : Int)) := by
  induction fuel generalizing a n with
  | zero => omega
  | succ fuel ih =>
    have hlt : a < b ↔ n < Nat.clog 2 b.toNat := by
      rw [UInt64.lt_iff_toNat_lt, ha, Nat.lt_clog_iff_pow_lt (by decide)]
    by_cases hab : a < b
    · -- `a` is below a number of 32 bits, so that doubling it does not wrap
      have hdouble : (a * 2).toNat = 2 ^ (n + 1) := by
        have hsmall : a.toNat < b.toNat := UInt64.lt_iff_toNat_lt.mp hab
        have hmul : (a * 2).toNat = a.toNat * 2 % 2 ^ 64 := UInt64.toNat_mul a 2
        rw [hmul, Nat.mod_eq_of_lt (by omega), ha, Nat.pow_succ]
      have hnext := hlt.mp hab
      simp only [findPow2nLoop, hab, if_true]
      simpa only [Nat.cast_succ] using @ih (n + 1) (a * 2) hdouble (by omega) (by omega)
    · have he : n = Nat.clog 2 b.toNat := by
        have hge := mt hlt.mpr hab
        omega
      simp only [findPow2nLoop, hab, if_false]
      exact ⟨a, he ▸ ha, by rw [← he]⟩

/-- The exponents go up to 32, so the condition is tested at most 33 times. -/
theorem findPow2n_eq {fuel : Nat} (v : UInt32) (hfuel : 33 ≤ fuel) :
    findPow2n fuel v =
      some (if v.toNat = 2 ^ Nat.clog 2 v.toNat then (Nat.clog 2 v.toNat : Int) else -1) := by
  have hb : v.toUInt64.toNat = v.toNat := UInt32.toNat_toUInt64 v
  have hlt := v.toNat_lt
  have hclog : Nat.clog 2 v.toNat ≤ 32 := Nat.clog_le_of_le_pow (by omega)
  have hloop := @findPow2nLoop_eq fuel 0 1 v.toUInt64 (by omega) rfl (by omega)
    (by rw [hb]; omega)
  rw [hb] at hloop
  obtain ⟨p, hp, hloop⟩ := hloop
  have he : p = v.toUInt64 ↔ v.toNat = 2 ^ Nat.clog 2 v.toNat := by
    rw [← UInt64.toNat_inj, hp, hb]
    exact eq_comm
  simp only [findPow2n]
  rw [show ((0 : Nat) : Int) = 0 from rfl] at hloop
  rw [hloop]
  simp only [he]
  split_ifs <;> rfl

theorem nextPow2n64_isLeast {v : UInt64} (hpos : 1 ≤ v.toNat) (hle : v.toNat ≤ 2 ^ 63) :
    IsLeast {p | (∃ n, p = 2 ^ n) ∧ v.toNat ≤ p} (nextPow2n64 v).toNat := by
  have hclog : Nat.clog 2 v.toNat ≤ 63 := Nat.clog_le_of_le_pow hle
  have hpow : 2 ^ Nat.clog 2 v.toNat < 2 ^ 64 := Nat.pow_lt_pow_right (by decide) (by omega)
  rw [nextPow2n64_eq hpos, Nat.mod_eq_of_lt hpow]
  exact isLeast_two_pow_clog v.toNat

theorem nextPow2n_eq_nextPow2n64 {v : UInt32} (hpos : 1 ≤ v.toNat) (hle : v.toNat ≤ 2 ^ 31) :
    (nextPow2n v).toUInt64 = nextPow2n64 v.toUInt64 := by
  have hclog : Nat.clog 2 v.toNat ≤ 31 := Nat.clog_le_of_le_pow hle
  have hpow : 2 ^ Nat.clog 2 v.toNat < 2 ^ 32 := Nat.pow_lt_pow_right (by decide) (by omega)
  have h64 := @nextPow2n64_eq v.toUInt64 hpos
  rw [UInt32.toNat_toUInt64] at h64
  rw [← UInt64.toNat_inj, h64, UInt32.toNat_toUInt64, nextPow2n_eq hpos,
    Nat.mod_eq_of_lt hpow, Nat.mod_eq_of_lt (by omega)]

theorem nextPow2n_fixed_iff {v : UInt32} (hpos : 1 ≤ v.toNat) :
    nextPow2n v = v ↔ v.toNat = 2 ^ Nat.clog 2 v.toNat := by
  -- above 2 ^ 31 the rounded value wraps to zero, which is no fixed point
  have hlt := v.toNat_lt
  rw [← UInt32.toNat_inj, nextPow2n_eq hpos]
  have hge := Nat.le_pow_clog (by decide : 1 < 2) v.toNat
  have hclog : Nat.clog 2 v.toNat ≤ 32 := Nat.clog_le_of_le_pow (by omega)
  have hpow : 2 ^ Nat.clog 2 v.toNat ≤ 2 ^ 32 := Nat.pow_le_pow_right (by decide) hclog
  omega

theorem findPow2n_spec (v : UInt32) :
    ∃ r : Int, (∀ fuel, 33 ≤ fuel → findPow2n fuel v = some r) ∧
      (∀ n : Nat, r = n ↔ v.toNat = 2 ^ n) ∧
      (r = -1 ↔ ¬ ∃ n, v.toNat = 2 ^ n) ∧
      (0 ≤ r ↔ v.toNat = 2 ^ Nat.clog 2 v.toNat) := by
  refine ⟨_, fun _ => findPow2n_eq v, ?_⟩
  by_cases h : v.toNat = 2 ^ Nat.clog 2 v.toNat
  · simp only [if_pos h]
    refine ⟨?_, ?_, iff_of_true (by omega) h⟩
    · intro n
      have hn := @eq_two_pow_iff v.toNat n
      omega
    · constructor
      · intro hr
        omega
      · intro hno
        exact absurd ⟨_, h⟩ hno
  · simp only [if_neg h]
    have hno : ∀ n, v.toNat ≠ 2 ^ n := fun n hn => h (eq_two_pow_iff.mp hn).1
    refine ⟨?_, ?_, iff_of_false (by omega) h⟩
    · intro n
      have hn := hno n
      omega
    · simpa using hno

/-- No power of two is missed at either end of the range: the smeared bits
cover the full width, and what wraps to zero is not taken for a fixed point. -/
theorem pow2n_helpers_agree :
    (∀ v : UInt64, 1 ≤ v.toNat → v.toNat ≤ 2 ^ 63 →
      IsLeast {p | (∃ n, p = 2 ^ n) ∧ v.toNat ≤ p} (nextPow2n64 v).toNat) ∧
    (∀ v : UInt32, 1 ≤ v.toNat → v.toNat ≤ 2 ^ 31 →
      (nextPow2n v).toUInt64 = nextPow2n64 v.toUInt64) ∧
    (∀ v : UInt32, ∃ r : Int, (∀ fuel, 33 ≤ fuel → findPow2n fuel v = some r) ∧
      (∀ n : Nat, r = n ↔ v.toNat = 2 ^ n) ∧ (r = -1 ↔ ¬ ∃ n, v.toNat = 2 ^ n) ∧
      (nextPow2n v = v ∧ 1 ≤ v.toNat ↔ 0 ≤ r)) := by
  refine ⟨fun _ => nextPow2n64_isLeast, fun _ => nextPow2n_eq_nextPow2n64, ?_⟩
  intro v
  obtain ⟨r, hret, hpow, hnone, hnonneg⟩ := findPow2n_spec v
  refine ⟨r, hret, hpow, hnone, ?_⟩
  rw [hnonneg]
  constructor
  · rintro ⟨hfix, hpos⟩
    exact (nextPow2n_fixed_iff hpos).mp hfix
  · intro h
    have hp := Nat.two_pow_pos (Nat.clog 2 v.toNat)
    have hpos : 1 ≤ v.toNat := by omega
    exact ⟨(nextPow2n_fixed_iff hpos).mpr h, hpos⟩

theorem pow2n_helpers_agree_eight :
    IsLeast {p | (∃ n, p = 2 ^ n) ∧ (5 : UInt64).toNat ≤ p} (nextPow2n64 5).toNat ∧
    (nextPow2n 5).toUInt64 = nextPow2n64 (5 : UInt32).toUInt64 ∧ findPow2n 33 8 = some 3 := by
  have h64 := pow2n_helpers_agree.1 5 (by decide) (by decide)
  have h32 := pow2n_helpers_agree.2.1 5 (by decide) (by decide)
  obtain ⟨r, hret, hpow, _, _⟩ := pow2n_helpers_agree.2.2 8
  have hr : r = 3 := (hpow 3).mpr (by decide)
  exact ⟨h64, h32, hr ▸ hret 33 (by decide)⟩

end LibCC
