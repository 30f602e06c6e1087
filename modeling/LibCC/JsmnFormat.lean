import LibCC.JsmnStream
import LibCC.NearestFloat

/-! What vsnprintf and snprintf make of the arguments of the stream, for texts and doubles of any
size, and the calls that put it through the array of 256 bytes. -/

namespace LibCC

/-- A C string, without the NUL that ends it. -/
@[ext] structure JsmnFormatted where
  bytes : List UInt8
  nulFree : (0 : UInt8) ∉ bytes

/-- CC_JSMN_STREAM_STRING_SIZE -/
def jsmnStreamStringSize : Nat := 256

/-- What vsnprintf stores of the text in an array of that size. -/
def JsmnFormatted.stored (text : JsmnFormatted) : JsmnText where
  bytes := text.bytes.take (jsmnStreamStringSize - 1)
  nulFree := fun h => text.nulFree (List.mem_of_mem_take h)
  fits := (List.length_take_le _ _).trans_lt (by decide)

/-- A double that is neither infinite nor a NaN. -/
structure FiniteDouble where
  negative : Bool
  significand : Nat
  exponent : Int
  significand_lt : significand < 2 ^ 53
  exponent_ge : -1074 ≤ exponent
  exponent_le : exponent ≤ 971

namespace FiniteDouble

def magnitude (val : FiniteDouble) : ℚ := val.significand * 2 ^ val.exponent

def value (val : FiniteDouble) : ℚ := if val.negative then -val.magnitude else val.magnitude

/-- How many millionths %lf prints. -/
def millionths (val : FiniteDouble) : Nat := (nearestEven (val.magnitude * 10 ^ 6)).toNat

theorem magnitude_nonneg (val : FiniteDouble) : 0 ≤ val.magnitude := by
  unfold magnitude
  positivity

theorem magnitude_of_value {val : FiniteDouble} {n : ℤ} (h : val.value = n) :
    val.magnitude = n.natAbs := by
  have habs : |val.value| = val.magnitude := by
    unfold value
    split_ifs
    · rw [abs_neg, abs_of_nonneg val.magnitude_nonneg]
    · exact abs_of_nonneg val.magnitude_nonneg
  rw [← habs, h, ← Int.cast_abs, Int.abs_eq_natAbs, Int.cast_natCast]

theorem millionths_of_nat {val : FiniteDouble} {n : Nat} (h : val.magnitude = n) :
    val.millionths = n * 10 ^ 6 := by
  unfold millionths
  rw [h, show (n : ℚ) * 10 ^ 6 = ((n * 10 ^ 6 : ℤ) : ℚ) by push_cast; ring, nearestEven_intCast]
  omega

/-- From 2^53 on every double is an integer. -/
theorem magnitude_lt_or_nat (val : FiniteDouble) :
    val.magnitude < 2 ^ 53 ∨ ∃ n : Nat, val.magnitude = n := by
  rcases le_or_gt 0 val.exponent with he | he
  · right
    obtain ⟨e, he⟩ := Int.eq_ofNat_of_zero_le he
    refine ⟨val.significand * 2 ^ e, ?_⟩
    rw [magnitude, he]
    push_cast
    rfl
  · left
    have hpow : (2 : ℚ) ^ val.exponent ≤ 1 := zpow_le_one_of_nonpos₀ (by norm_num) he.le
    have hlt : (val.significand : ℚ) < 2 ^ 53 := by exact_mod_cast val.significand_lt
    have h0 : (0 : ℚ) ≤ val.significand := Nat.cast_nonneg _
    have hle := mul_le_mul_of_nonneg_left hpow h0
    rw [mul_one] at hle
    exact hle.trans_lt hlt

theorem millionths_lt_iff (val : FiniteDouble) {k : Nat} (hk : 16 ≤ k) :
    val.millionths < 10 ^ k * 10 ^ 6 ↔ val.magnitude < 10 ^ k := by
  rcases val.magnitude_lt_or_nat with hlt | ⟨n, hn⟩
  · have hpow : (10 : ℚ) ^ 16 ≤ 10 ^ k := pow_le_pow_right₀ (by norm_num) hk
    have hmag : val.magnitude < 10 ^ k := hlt.trans (lt_of_lt_of_le (by norm_num) hpow)
    have hmil : nearestEven (val.magnitude * 10 ^ 6) ≤ 2 ^ 53 * 10 ^ 6 :=
      nearestEven_le (by push_cast; linarith)
    have hnat : (10 : Nat) ^ 16 ≤ 10 ^ k := Nat.pow_le_pow_right (by omega) hk
    refine iff_of_true ?_ hmag
    unfold millionths
    omega
  · rw [millionths_of_nat hn, hn]
    have hcast : (n : ℚ) < 10 ^ k ↔ n < 10 ^ k := by exact_mod_cast Iff.rfl
    rw [hcast]
    omega

end FiniteDouble

theorem formatNat_length_le_iff {n k : Nat} (hk : 0 < k) :
    (formatNat n).length ≤ k ↔ n < 10 ^ k := by
  constructor
  · intro h
    unfold formatNat at h
    split_ifs at h with hn
    · rw [hn]
      positivity
    · rw [List.length_map, List.length_reverse] at h
      exact (Nat.digits_length_le_iff (by omega) n).mp h
  · exact fun h => formatNat_length h hk

/-- The last `k` decimals of `n`. -/
def formatDecimals : Nat → Nat → List UInt8
  | 0, _ => []
  | k + 1, n => formatDecimals k (n / 10) ++ [UInt8.ofNat (48 + n % 10)]

theorem formatDecimals_length (k n : Nat) : (formatDecimals k n).length = k := by
  induction k generalizing n with
  | zero => rfl
  | succ k ih => rw [formatDecimals, List.length_append, ih, List.length_singleton]

theorem formatDecimals_zero (k : Nat) : formatDecimals k 0 = List.replicate k 48 := by
  induction k with
  | zero => rfl
  | succ k ih =>
    rw [formatDecimals, Nat.zero_div, ih, List.replicate_succ']
    rfl

theorem digit_ge {d : Nat} (hd : d < 10) : (48 : UInt8) ≤ UInt8.ofNat (48 + d) := by
  interval_cases d <;> decide

theorem formatNat_ge (n : Nat) : ∀ b ∈ formatNat n, (48 : UInt8) ≤ b := by
  intro b hb
  unfold formatNat at hb
  split_ifs at hb
  · obtain rfl := List.mem_singleton.mp hb
    exact digit_ge (d := 0) (by omega)
  · obtain ⟨d, hd, rfl⟩ := List.mem_map.mp hb
    exact digit_ge (Nat.digits_lt_base (by omega) (List.mem_reverse.mp hd))

theorem formatDecimals_ge (k n : Nat) : ∀ b ∈ formatDecimals k n, (48 : UInt8) ≤ b := by
  induction k generalizing n with
  | zero => exact fun b hb => absurd hb List.not_mem_nil
  | succ k ih =>
    intro b hb
    rcases List.mem_append.mp hb with hb | hb
    · exact ih _ b hb
    · rw [List.mem_singleton.mp hb]
      exact digit_ge (Nat.mod_lt _ (by omega))

theorem formatDecimals_nulFree (k n : Nat) : (0 : UInt8) ∉ formatDecimals k n :=
  fun h => absurd (formatDecimals_ge k n 0 h) (by decide)

/-- The conversion %lf, rounded to nearest. -/
def formatDouble (val : FiniteDouble) : JsmnFormatted where
  bytes := (if val.negative then [45] else []) ++ formatNat (val.millionths / 10 ^ 6) ++
    46 :: formatDecimals 6 (val.millionths % 10 ^ 6)
  nulFree := by
    have hnat := formatNat_nulFree (val.millionths / 10 ^ 6)
    have hdec := formatDecimals_nulFree 6 (val.millionths % 10 ^ 6)
    split_ifs <;> simpa using ⟨hnat, hdec⟩

/-- The numeral of an integer, which a double of that value is printed with. -/
theorem formatDouble_integer {val : FiniteDouble} {n : ℤ} (h : val.value = n) :
    (formatDouble val).bytes = (if val.negative then [45] else []) ++ formatNat n.natAbs ++
      [46, 48, 48, 48, 48, 48, 48] := by
  have hmil := FiniteDouble.millionths_of_nat (FiniteDouble.magnitude_of_value h)
  have hdiv : val.millionths / 10 ^ 6 = n.natAbs := by omega
  have hmod : val.millionths % 10 ^ 6 = 0 := by omega
  simp only [formatDouble]
  rw [hdiv, hmod, formatDecimals_zero]
  rfl

theorem formatDouble_length_iff (val : FiniteDouble) :
    (formatDouble val).bytes.length < jsmnStreamStringSize ↔
      val.magnitude < 10 ^ (if val.negative then 247 else 248) := by
  have hlen : (formatDouble val).bytes.length =
      (if val.negative then 1 else 0) + (formatNat (val.millionths / 10 ^ 6)).length + 7 := by
    simp only [formatDouble, List.length_append, List.length_cons, formatDecimals_length]
    split_ifs <;> simp
  have hdigits : ∀ k, 16 ≤ k → ((formatNat (val.millionths / 10 ^ 6)).length ≤ k ↔
      val.magnitude < 10 ^ k) := by
    intro k hk
    rw [formatNat_length_le_iff (by omega), Nat.div_lt_iff_lt_mul (by positivity),
      val.millionths_lt_iff hk]
  rw [hlen, jsmnStreamStringSize]
  split_ifs
  · rw [← hdigits 247 (by omega)]
    omega
  · rw [← hdigits 248 (by omega)]
    omega

/-- The calls whose value goes through the array. -/
inductive JsmnValue
  | key (text : JsmnFormatted) | string (text : JsmnFormatted) | double (val : FiniteDouble)

namespace JsmnValue

/-- The formatted text. -/
def text : JsmnValue → JsmnFormatted
  | key text => text
  | string text => text
  | double val => formatDouble val

/-- What is written of a text besides separators. -/
def written : JsmnValue → List UInt8 → List UInt8
  | key _, bytes => 34 :: (bytes ++ [34, 58])
  | string _, bytes => 34 :: (bytes ++ [34])
  | double _, bytes => bytes

def call : JsmnValue → JsmnCall
  | key text => .key text.stored
  | string text => .scalar (.string text.stored)
  | double val => .scalar (.double (formatDouble val).stored)

/-- The text fits in the array. -/
def Fits : JsmnValue → Prop
  | key text => text.bytes.length < jsmnStreamStringSize
  | string text => text.bytes.length < jsmnStreamStringSize
  | double val => val.magnitude < 10 ^ (if val.negative then 247 else 248)

theorem fits_iff (v : JsmnValue) : v.Fits ↔ v.text.bytes.length < jsmnStreamStringSize := by
  cases v with
  | key text => exact Iff.rfl
  | string text => exact Iff.rfl
  | double val => exact (formatDouble_length_iff val).symm

end JsmnValue

end LibCC
