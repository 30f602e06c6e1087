import LibCC.MapNodeOrder
import LibCC.WordMix

/-! The hash function of cc_mumurhash3.c on the first `len` bytes of a key. No
step of it loses what it mixes in. -/

namespace LibCC

open Function

def rotl32 (x r : UInt32) : UInt32 := (x <<< r) ||| (x >>> (32 - r))

/-- The block read of a little-endian machine. -/
def getblock32 (key : List UInt8) (i : Nat) : UInt32 := UInt32.ofNat (loadLE key (4 * i) 4)

def fmix32 (h : UInt32) : UInt32 :=
  let h := h ^^^ (h >>> 16)
  let h := h * 0x85ebca6b
  let h := h ^^^ (h >>> 13)
  let h := h * 0xc2b2ae35
  h ^^^ (h >>> 16)

def murmurC1 : UInt32 := 0xcc9e2d51

def murmurC2 : UInt32 := 0x1b873593

/-- What both the body and the tail do to k1. -/
def murmurScramble (k1 : UInt32) : UInt32 := rotl32 (k1 * murmurC1) 15 * murmurC2

/-- One turn of the body. -/
def murmurMix (h1 k1 : UInt32) : UInt32 :=
  let h1 := h1 ^^^ murmurScramble k1
  let h1 := rotl32 h1 13
  h1 * 5 + 0xe6546b64

/-- The `for` loop over the `cnt` blocks from block `i` on. -/
def murmurBody (key : List UInt8) (cnt i : Nat) (h1 : UInt32) : UInt32 :=
  (List.range' i cnt).foldl (fun h1 i => murmurMix h1 (getblock32 key i)) h1

/-- The `switch` over the bytes behind the last block, whose cases fall through. -/
def murmurTail (len : Nat) (key : List UInt8) (h1 : UInt32) : UInt32 :=
  let tail (i : Nat) : UInt32 := (key.getD (4 * (len / 4) + i) 0).toUInt32
  let k1 : UInt32 := 0
  let k1 := if len % 4 ≥ 3 then k1 ^^^ (tail 2 <<< 16) else k1
  let k1 := if len % 4 ≥ 2 then k1 ^^^ (tail 1 <<< 8) else k1
  if len % 4 ≥ 1 then h1 ^^^ murmurScramble (k1 ^^^ tail 0) else h1

/-- cc_mumurhash3 -/
def mumurhash3 (seed : UInt32) (len : Nat) (key : List UInt8) : UInt32 :=
  let h1 := murmurBody key (len / 4) 0 seed
  let h1 := murmurTail len key h1
  fmix32 (h1 ^^^ UInt32.ofNat len)

example : mumurhash3 0 4 [0x74, 0x65, 0x73, 0x74] = 0xba6bd213 := by decide +kernel

section Words

theorem shiftRight_toBitVec (x : UInt32) {r : Nat} (hr : r < 32) :
    (x >>> UInt32.ofNat r).toBitVec = x.toBitVec >>> r := by
  have hmod : r % 4294967296 % 32 = r := by omega
  simp [UInt32.toBitVec_shiftRight, hmod]

theorem rotl32_toBitVec (x : UInt32) {r : Nat} (hpos : 0 < r) (hr : r < 32) :
    (rotl32 x (UInt32.ofNat r)).toBitVec = x.toBitVec.rotateLeft r := by
  have hmod : r % 4294967296 % 32 = r := by omega
  have hsub : 32 - UInt32.ofNat r = UInt32.ofNat (32 - r) :=
    (UInt32.ofNat_sub hr.le).symm
  rw [rotl32, UInt32.toBitVec_or, hsub, shiftRight_toBitVec x (by omega), BitVec.rotateLeft_def,
    Nat.mod_eq_of_lt hr]
  simp [UInt32.toBitVec_shiftLeft, hmod]

theorem xorShift_injective {r : Nat} (hpos : 0 < r) (hr : r < 32) :
    Injective fun h : UInt32 => h ^^^ (h >>> UInt32.ofNat r) := by
  intro x y he
  apply UInt32.toBitVec_inj.mp
  apply WordMix.xor_shiftRight_injective hpos
  have hbits := congrArg UInt32.toBitVec he
  simpa only [UInt32.toBitVec_xor, shiftRight_toBitVec _ hr] using hbits

theorem rotl32_injective {r : Nat} (hpos : 0 < r) (hr : r < 32) :
    Injective fun x => rotl32 x (UInt32.ofNat r) := by
  intro x y he
  apply UInt32.toBitVec_inj.mp
  apply WordMix.rotateLeft_injective hr
  have hbits := congrArg UInt32.toBitVec he
  simpa only [rotl32_toBitVec _ hpos hr] using hbits

theorem mul32_injective {c d : UInt32} (h : c * d = 1) : Injective fun x : UInt32 => x * c := by
  intro x y he
  apply UInt32.toBitVec_inj.mp
  apply WordMix.mul_injective (congrArg UInt32.toBitVec h)
  simpa only [UInt32.toBitVec_mul] using congrArg UInt32.toBitVec he

theorem fmix32_injective : Injective fmix32 := by
  have hs₁ := xorShift_injective (r := 16) (by decide) (by decide)
  have hs₂ := xorShift_injective (r := 13) (by decide) (by decide)
  have hm₁ : Injective fun x : UInt32 => x * 0x85ebca6b := mul32_injective (d := 0xa5cb9243) rfl
  have hm₂ : Injective fun x : UInt32 => x * 0xc2b2ae35 := mul32_injective (d := 0x7ed1b41d) rfl
  exact hs₁.comp (hm₂.comp (hs₂.comp (hm₁.comp hs₁)))

theorem murmurScramble_injective : Injective murmurScramble := by
  have hm₁ : Injective fun x : UInt32 => x * murmurC1 := mul32_injective (d := 0xdee13bb1) rfl
  have hr := rotl32_injective (r := 15) (by decide) (by decide)
  have hm₂ : Injective fun x : UInt32 => x * murmurC2 := mul32_injective (d := 0x56ed309b) rfl
  exact hm₂.comp (hr.comp hm₁)

theorem xor_scramble_injective (h1 : UInt32) : Injective fun k1 => h1 ^^^ murmurScramble k1 :=
  fun _ _ he => murmurScramble_injective ((UInt32.xor_right_inj h1).mp he)

theorem murmurMix_eq (h1 k1 : UInt32) :
    murmurMix h1 k1 = rotl32 (h1 ^^^ murmurScramble k1) 13 * 5 + 0xe6546b64 := rfl

theorem murmurMix_eq_iff {h1 h1' k1 k1' : UInt32} : murmurMix h1 k1 = murmurMix h1' k1' ↔
    h1 ^^^ murmurScramble k1 = h1' ^^^ murmurScramble k1' := by
  have hr := rotl32_injective (r := 13) (by decide) (by decide)
  have hm : Injective fun x : UInt32 => x * 5 := mul32_injective (d := 0xcccccccd) rfl
  constructor
  · intro he
    rw [murmurMix_eq, murmurMix_eq] at he
    exact hr (hm ((UInt32.add_left_inj _).mp he))
  · intro he
    rw [murmurMix_eq, murmurMix_eq, he]

end Words

theorem loadLE_lt (l : List UInt8) (start width : Nat) : loadLE l start width < 256 ^ width := by
  induction width generalizing start with
  | zero => simp [loadLE]
  | succ width ih =>
    have hrest := ih (start + 1)
    have hbyte := (l.getD start 0).toNat_lt
    rw [loadLE, Nat.pow_succ]
    omega

theorem loadLE_eq_iff {a b : List UInt8} {start width : Nat} :
    loadLE a start width = loadLE b start width ↔
      ∀ i, start ≤ i → i < start + width → a.getD i 0 = b.getD i 0 := by
  constructor
  · intro he i hs hi
    exact loadLE_inj he hs hi
  · intro h
    induction width generalizing start with
    | zero => rfl
    | succ width ih =>
      have hrest : loadLE a (start + 1) width = loadLE b (start + 1) width :=
        ih fun i hs hi => h i (by omega) (by omega)
      simp only [loadLE, h start (le_refl _) (by omega), hrest]

theorem ofNat_loadLE_inj {a b : List UInt8} {start width : Nat} (hw : width ≤ 4) :
    UInt32.ofNat (loadLE a start width) = UInt32.ofNat (loadLE b start width) ↔
      ∀ i, start ≤ i → i < start + width → a.getD i 0 = b.getD i 0 := by
  have hpow : 256 ^ width ≤ 256 ^ 4 := Nat.pow_le_pow_right (by omega) hw
  have ha := loadLE_lt a start width
  have hb := loadLE_lt b start width
  rw [← loadLE_eq_iff]
  constructor
  · intro he
    have hnat := congrArg UInt32.toNat he
    rw [UInt32.toNat_ofNat', UInt32.toNat_ofNat'] at hnat
    omega
  · intro he
    rw [he]

section Keys

variable {a b key : List UInt8}

theorem murmurBody_succ (key : List UInt8) (cnt i : Nat) (h1 : UInt32) :
    murmurBody key (cnt + 1) i h1 =
      murmurBody key cnt (i + 1) (murmurMix h1 (getblock32 key i)) := by
  simp only [murmurBody, List.range'_succ, List.foldl_cons]

theorem murmurBody_injective (key : List UInt8) (cnt i : Nat) :
    Injective (murmurBody key cnt i) := by
  induction cnt generalizing i with
  | zero => exact fun _ _ he => he
  | succ cnt ih =>
    intro x y he
    rw [murmurBody_succ, murmurBody_succ] at he
    have hmix := murmurMix_eq_iff.mp (ih (i + 1) he)
    exact (UInt32.xor_left_inj _).mp hmix

theorem murmurBody_add (key : List UInt8) (m n i : Nat) (h1 : UInt32) :
    murmurBody key (m + n) i h1 = murmurBody key n (i + m) (murmurBody key m i h1) := by
  have hrange : List.range' i (m + n) = List.range' i m ++ List.range' (i + m) n := by
    rw [List.range'_append_1]
  simp only [murmurBody, hrange, List.foldl_append]

theorem murmurBody_snoc (key : List UInt8) (n : Nat) (h1 : UInt32) :
    murmurBody key (n + 1) 0 h1 = murmurMix (murmurBody key n 0 h1) (getblock32 key n) := by
  rw [murmurBody_add, Nat.zero_add, murmurBody_succ]
  simp only [murmurBody, List.range'_zero, List.foldl_nil]

theorem murmurBody_congr {cnt i : Nat} (h1 : UInt32)
    (h : ∀ j, 4 * i ≤ j → j < 4 * (i + cnt) → a.getD j 0 = b.getD j 0) :
    murmurBody a cnt i h1 = murmurBody b cnt i h1 := by
  induction cnt generalizing i h1 with
  | zero => simp only [murmurBody, List.range'_zero, List.foldl_nil]
  | succ cnt ih =>
    have hblock : getblock32 a i = getblock32 b i :=
      (ofNat_loadLE_inj (le_refl 4)).mpr fun j hs hj => h j hs (by omega)
    rw [murmurBody_succ, murmurBody_succ, hblock, ih]
    intro j hs hj
    exact h j (by omega) (by omega)

theorem ofNat_xor {x y k : Nat} (hy : y < 2 ^ k) (hx : 2 ^ k * x + y < 2 ^ 32) :
    UInt32.ofNat (2 ^ k * x) ^^^ UInt32.ofNat y = UInt32.ofNat (2 ^ k * x + y) := by
  apply UInt32.toNat_inj.mp
  rw [UInt32.toNat_xor, UInt32.toNat_ofNat', UInt32.toNat_ofNat', UInt32.toNat_ofNat',
    Nat.mod_eq_of_lt (by omega), Nat.mod_eq_of_lt (by omega), Nat.mod_eq_of_lt hx,
    WordMix.two_pow_mul_xor x hy]

theorem byte_shiftLeft (b : UInt8) {k : Nat} (hk : k ≤ 24) :
    b.toUInt32 <<< UInt32.ofNat k = UInt32.ofNat (2 ^ k * b.toNat) := by
  apply UInt32.toNat_inj.mp
  have hmod : k % 2 ^ 32 % 32 = k := by omega
  rw [UInt32.toNat_shiftLeft, UInt32.toNat_ofNat', UInt32.toNat_ofNat', hmod,
    Nat.shiftLeft_eq, UInt8.toNat_toUInt32, Nat.mul_comm]

theorem two_bytes (b₀ b₁ : UInt8) :
    (b₁.toUInt32 <<< 8) ^^^ b₀.toUInt32 = UInt32.ofNat (b₀.toNat + 256 * b₁.toNat) := by
  have h₀ := b₀.toNat_lt
  have h₁ := b₁.toNat_lt
  have hxor := ofNat_xor (x := b₁.toNat) (y := b₀.toNat) (k := 8) (by omega) (by omega)
  rw [← byte_shiftLeft b₁ (by omega), UInt32.ofNat_uInt8ToNat] at hxor
  rw [Nat.add_comm]
  exact hxor

theorem three_bytes (b₀ b₁ b₂ : UInt8) :
    (b₂.toUInt32 <<< 16) ^^^ (b₁.toUInt32 <<< 8) ^^^ b₀.toUInt32 =
      UInt32.ofNat (b₀.toNat + 256 * (b₁.toNat + 256 * b₂.toNat)) := by
  have h₀ := b₀.toNat_lt
  have h₁ := b₁.toNat_lt
  have h₂ := b₂.toNat_lt
  have hxor := ofNat_xor (x := b₂.toNat) (y := b₀.toNat + 256 * b₁.toNat) (k := 16) (by omega)
    (by omega)
  rw [← byte_shiftLeft b₂ (by omega), ← two_bytes b₀ b₁, ← UInt32.xor_assoc] at hxor
  have he : b₀.toNat + 256 * (b₁.toNat + 256 * b₂.toNat) =
      2 ^ 16 * b₂.toNat + (b₀.toNat + 256 * b₁.toNat) := by omega
  rw [he]
  exact hxor

/-- The tail mixes in the bytes behind the last block as one word. -/
theorem murmurTail_eq (len : Nat) (key : List UInt8) (h1 : UInt32) :
    murmurTail len key h1 = if len % 4 ≥ 1 then
      h1 ^^^ murmurScramble (UInt32.ofNat (loadLE key (4 * (len / 4)) (len % 4))) else h1 := by
  have hr : len % 4 = 0 ∨ len % 4 = 1 ∨ len % 4 = 2 ∨ len % 4 = 3 := by omega
  rcases hr with hr | hr | hr | hr
  · simp [murmurTail, hr]
  · simp [murmurTail, hr, loadLE]
  · simp [murmurTail, hr, loadLE, two_bytes]
  · simp [murmurTail, hr, loadLE, three_bytes]

theorem murmurTail_congr {len : Nat} (h1 : UInt32)
    (h : ∀ i, 4 * (len / 4) ≤ i → i < len → a.getD i 0 = b.getD i 0) :
    murmurTail len a h1 = murmurTail len b h1 := by
  have hword : UInt32.ofNat (loadLE a (4 * (len / 4)) (len % 4)) =
      UInt32.ofNat (loadLE b (4 * (len / 4)) (len % 4)) :=
    (ofNat_loadLE_inj (by omega)).mpr fun i hs hi => h i hs (by omega)
  rw [murmurTail_eq, murmurTail_eq, hword]

theorem murmurTail_injective (len : Nat) (key : List UInt8) : Injective (murmurTail len key) := by
  intro x y he
  rw [murmurTail_eq, murmurTail_eq] at he
  split at he
  · exact (UInt32.xor_left_inj _).mp he
  · exact he

theorem mumurhash3_eq_iff {seed : UInt32} {len : Nat} :
    mumurhash3 seed len a = mumurhash3 seed len b ↔
      murmurTail len a (murmurBody a (len / 4) 0 seed) =
        murmurTail len b (murmurBody b (len / 4) 0 seed) := by
  constructor
  · intro he
    exact (UInt32.xor_left_inj _).mp (fmix32_injective he)
  · intro he
    rw [mumurhash3, mumurhash3, he]

/-- Two keys that end alike have one hash if they have one state where they begin to. -/
theorem mumurhash3_common_end {seed : UInt32} {len n : Nat} (hn : n ≤ len / 4)
    (h : ∀ i, 4 * n ≤ i → i < len → a.getD i 0 = b.getD i 0) :
    mumurhash3 seed len a = mumurhash3 seed len b ↔
      murmurBody a n 0 seed = murmurBody b n 0 seed := by
  obtain ⟨m, hm⟩ : ∃ m, len / 4 = n + m := ⟨len / 4 - n, by omega⟩
  have hend : ∀ h1, murmurBody a m n h1 = murmurBody b m n h1 := fun h1 =>
    murmurBody_congr h1 fun i hs hi => h i hs (by omega)
  rw [mumurhash3_eq_iff, murmurTail_congr _ fun i hs hi => h i (by omega) hi,
    (murmurTail_injective len b).eq_iff, hm, murmurBody_add, murmurBody_add, Nat.zero_add, hend,
    (murmurBody_injective b m n).eq_iff]

/-- Keys that differ in one word only are told apart. -/
theorem mumurhash3_one_word {seed : UInt32} {len j : Nat}
    (h : ∀ i < len, i / 4 ≠ j → a.getD i 0 = b.getD i 0) :
    mumurhash3 seed len a = mumurhash3 seed len b ↔ ∀ i < len, a.getD i 0 = b.getD i 0 := by
  have hfront : ∀ n ≤ j, n ≤ len / 4 → murmurBody a n 0 seed = murmurBody b n 0 seed := by
    intro n hnj hn
    apply murmurBody_congr
    intro i _ hi
    exact h i (by omega) (by omega)
  by_cases hj : j < len / 4
  · rw [mumurhash3_common_end (n := j + 1) hj fun i hs hi => h i hi (by omega), murmurBody_snoc,
      murmurBody_snoc, hfront j (le_refl j) hj.le, murmurMix_eq_iff,
      (xor_scramble_injective _).eq_iff, getblock32, getblock32, ofNat_loadLE_inj (le_refl 4)]
    constructor
    · intro hword i hi
      by_cases hij : i / 4 = j
      · exact hword i (by omega) (by omega)
      · exact h i hi hij
    · intro hall i _ hi
      exact hall i (by omega)
  · rw [mumurhash3_eq_iff, hfront (len / 4) (by omega) (le_refl _), murmurTail_eq, murmurTail_eq]
    split
    · rw [(xor_scramble_injective _).eq_iff, ofNat_loadLE_inj (by omega)]
      constructor
      · intro hword i hi
        by_cases hij : i / 4 = j
        · exact hword i (by omega) (by omega)
        · exact h i hi hij
      · intro hall i _ hi
        exact hall i (by omega)
    · refine iff_of_true rfl fun i hi => h i hi ?_
      omega

end Keys

/-- What cc_mumurhash3 cannot confuse: two seeds on one key, and two keys of one length that
differ in one word. A collision of two whole numbers of words lasts whatever follows them. -/
theorem mumurhash3_mixes :
    (∀ len key, Bijective fun seed => mumurhash3 seed len key) ∧
    (∀ seed len j a b, (∀ i < len, i / 4 ≠ j → a.getD i 0 = b.getD i 0) →
      (mumurhash3 seed len a = mumurhash3 seed len b ↔ ∀ i < len, a.getD i 0 = b.getD i 0)) ∧
    ∀ seed n a b c d, a.length = 4 * n → b.length = 4 * n →
      (mumurhash3 seed (a ++ c).length (a ++ c) = mumurhash3 seed (b ++ c).length (b ++ c) ↔
        mumurhash3 seed (a ++ d).length (a ++ d) = mumurhash3 seed (b ++ d).length (b ++ d)) := by
  refine ⟨fun len key => ?_, fun _ _ _ _ _ h => mumurhash3_one_word h, ?_⟩
  · apply Finite.injective_iff_bijective.mp
    intro x y he
    have hbody := murmurTail_injective len key ((UInt32.xor_left_inj _).mp (fmix32_injective he))
    exact murmurBody_injective key _ _ hbody
  · intro seed n a b c d ha hb
    have hstate : ∀ e, mumurhash3 seed (a ++ e).length (a ++ e) =
        mumurhash3 seed (b ++ e).length (b ++ e) ↔
          murmurBody a n 0 seed = murmurBody b n 0 seed := by
      intro e
      have hlen : (b ++ e).length = (a ++ e).length := by simp [ha, hb]
      have hfront : ∀ l : List UInt8, l.length = 4 * n →
          murmurBody (l ++ e) n 0 seed = murmurBody l n 0 seed := by
        intro l hl
        apply murmurBody_congr
        intro i _ hi
        rw [List.getD_append _ _ _ _ (by omega)]
      rw [hlen, mumurhash3_common_end (n := n), hfront a ha, hfront b hb]
      · rw [List.length_append]
        omega
      · intro i hs _
        rw [List.getD_append_right _ _ _ _ (by omega), List.getD_append_right _ _ _ _ (by omega),
          ha, hb]
    rw [hstate, hstate]

theorem mumurhash3_mixes_tail : (Bijective fun seed => mumurhash3 seed 3 [1, 2, 3]) ∧
    mumurhash3 5 3 [1, 2, 3] ≠ mumurhash3 5 3 [1, 2, 4] ∧
    (mumurhash3 0 7 [1, 2, 3, 4, 5, 6, 7] = mumurhash3 0 7 [8, 2, 3, 4, 5, 6, 7] ↔
      mumurhash3 0 5 [1, 2, 3, 4, 9] = mumurhash3 0 5 [8, 2, 3, 4, 9]) := by
  obtain ⟨hseed, hword, hpersist⟩ := mumurhash3_mixes
  refine ⟨hseed 3 [1, 2, 3], fun he => ?_,
    hpersist 0 1 [1, 2, 3, 4] [8, 2, 3, 4] [5, 6, 7] [9] rfl rfl⟩
  have hall := (hword 5 3 0 [1, 2, 3] [1, 2, 4] fun i hi hj => by omega).mp he
  exact absurd (hall 2 (by omega)) (by decide)

end LibCC
