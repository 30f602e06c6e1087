import LibCC.Mat4
import LibCC.RowOperations

/-! The Gauss-Jordan elimination of cc_mat4f_inverse_copy and cc_mat3f_inverse_copy, which are the
same for their sizes. The columns up to the pivot's are in order when it is chosen, so that what a
shortened loop leaves out is zero. -/

namespace LibCC

variable {n : ℕ} {K : Type} [Field K]

section Model

variable [LinearOrder K]

/-- A division by zero has no result. -/
def divide (x y : K) : Option K := if y = 0 then none else some (x / y)

/-- The augmented matrix [a|v]. -/
structure Augmented (n : ℕ) (K : Type) where
  a : Matrix (Fin n) (Fin n) K
  v : Matrix (Fin n) (Fin n) K

/-- The loop over the columns from `lo` on that subtracts `s` times row `j` from row `i`. -/
def subFrom (lo : ℕ) (a : Matrix (Fin n) (Fin n) K) (i j : Fin n) (s : K) :
    Matrix (Fin n) (Fin n) K :=
  a.updateRow i fun k => if lo ≤ k then a i k - s * a j k else a i k

/-- The loop over the columns from `lo` on that multiplies row `j` by `s`. -/
def mulFrom (lo : ℕ) (a : Matrix (Fin n) (Fin n) K) (j : Fin n) (s : K) :
    Matrix (Fin n) (Fin n) K :=
  a.updateRow j fun k => if lo ≤ k then a j k * s else a j k

def setEntry (a : Matrix (Fin n) (Fin n) K) (i j : Fin n) (x : K) : Matrix (Fin n) (Fin n) K :=
  a.updateRow i (Function.update (a i) j x)

/-- The first row with the largest magnitude in column `j`, from row `j` on. -/
def pivotRow (a : Matrix (Fin n) (Fin n) K) (j : Fin n) : Fin n :=
  ((List.finRange n).filter fun i => j < i).foldl
    (fun l i => if |a l j| < |a i j| then i else l) j

def eliminateBelow (j : Fin n) (st : Augmented n K) (i : Fin n) : Option (Augmented n K) := do
  let s ← divide (st.a i j) (st.a j j)
  return ⟨setEntry (subFrom (j + 1) st.a i j s) i j 0, subFrom 0 st.v i j s⟩

def exchangeRows (j l : Fin n) (st : Augmented n K) : Augmented n K :=
  ⟨st.a.submatrix (Equiv.swap j l) id, st.v.submatrix (Equiv.swap j l) id⟩

def forwardPass (st : Augmented n K) (j : Fin n) : Option (Augmented n K) := do
  let l := pivotRow st.a j
  let st := if l ≠ j then exchangeRows j l st else st
  let st ← ((List.finRange n).filter fun i => j < i).foldlM (eliminateBelow j) st
  let s ← divide 1 (st.a j j)
  return ⟨setEntry (mulFrom (j + 1) st.a j s) j j 1, mulFrom 0 st.v j s⟩

def clearAbove (j : Fin n) (st : Augmented n K) (i : Fin n) : Augmented n K :=
  let s := st.a i j
  ⟨subFrom j st.a i j s, subFrom 0 st.v i j s⟩

def backwardPass (st : Augmented n K) (j : Fin n) : Augmented n K :=
  ((List.finRange n).reverse.filter fun i => i < j).foldl (clearAbove j) st

def inverseCopy (self : Matrix (Fin n) (Fin n) K) : Option (Matrix (Fin n) (Fin n) K) := do
  let st ← (List.finRange n).foldlM forwardPass ⟨self, 1⟩
  let st := ((List.finRange n).reverse.filter fun j => 0 < j.val).foldl backwardPass st
  return st.v

def mat4fInverseCopy (self : Mat4 K) : Option (Mat4 K) :=
  (inverseCopy self.toMatrix).map Mat4.ofMatrix

def mat3fInverseCopy (self : Mat3 K) : Option (Mat3 K) :=
  (inverseCopy self.toMatrix).map Mat3.ofMatrix

def mat4fNormalmatrix (self : Mat4 K) : Option (Mat3 K) := do
  let nm ← mat3fInverseCopy self.upper
  return mat3fTransposeCopy nm

end Model

section RowsOfTheLoops

variable {a : Matrix (Fin n) (Fin n) K} {i j : Fin n} {s : K}

theorem subFrom_eq {lo : ℕ} (h : ∀ k : Fin n, k < lo → a j k = 0) :
    subFrom lo a i j s = a.updateRow i (a i - s • a j) := by
  unfold subFrom
  congr 1
  funext k
  by_cases hk : lo ≤ k
  · rw [if_pos hk]
    rfl
  · rw [if_neg hk, Pi.sub_apply, Pi.smul_apply, h k (not_le.mp hk), smul_zero, sub_zero]

theorem subFrom_zero : subFrom 0 a i j s = a.updateRow i (a i - s • a j) :=
  subFrom_eq fun k hk => absurd hk (Nat.not_lt_zero k)

theorem mulFrom_zero : mulFrom 0 a j s = a.updateRow j (s • a j) := by
  unfold mulFrom
  congr 1
  funext k
  rw [if_pos (Nat.zero_le k), mul_comm]
  rfl

/-- The entry that is set to zero is what the row operation would make of it. -/
theorem setEntry_subFrom (hj : a j j ≠ 0) (h : ∀ k, k < j → a j k = 0) :
    setEntry (subFrom (j + 1) a i j (a i j / a j j)) i j 0 =
      a.updateRow i (a i - (a i j / a j j) • a j) := by
  unfold setEntry subFrom
  rw [Matrix.updateRow_idem, Matrix.updateRow_self]
  congr 1
  funext k
  rw [Pi.sub_apply, Pi.smul_apply, smul_eq_mul]
  rcases lt_trichotomy k j with hlt | rfl | hgt
  · rw [Function.update_of_ne hlt.ne, if_neg (by omega), h k hlt, mul_zero, sub_zero]
  · rw [Function.update_self, div_mul_cancel₀ _ hj, sub_self]
  · rw [Function.update_of_ne hgt.ne', if_pos (by omega)]

theorem setEntry_mulFrom (hj : a j j ≠ 0) (h : ∀ k, k < j → a j k = 0) :
    setEntry (mulFrom (j + 1) a j (1 / a j j)) j j 1 = a.updateRow j ((1 / a j j) • a j) := by
  unfold setEntry mulFrom
  rw [Matrix.updateRow_idem, Matrix.updateRow_self]
  congr 1
  funext k
  rw [Pi.smul_apply, smul_eq_mul]
  rcases lt_trichotomy k j with hlt | rfl | hgt
  · rw [Function.update_of_ne hlt.ne, if_neg (by omega), h k hlt, mul_zero]
  · rw [Function.update_self, one_div_mul_cancel hj]
  · rw [Function.update_of_ne hgt.ne', if_pos (by omega), mul_comm]

/-- Below row `k` of an ordered column the row operation finds two zeros. -/
theorem UnitriangularTo.subRow (hu : UnitriangularTo j a) (hij : j < i) (s : K) :
    UnitriangularTo j (a.updateRow i (a i - s • a j)) := by
  intro k hk
  obtain ⟨hone, hzero⟩ := hu k hk
  have hki : k < i := lt_trans hk hij
  constructor
  · rw [Matrix.updateRow_ne hki.ne, hone]
  · intro r hr
    by_cases hri : r = i
    · subst hri
      rw [Matrix.updateRow_self, Pi.sub_apply, Pi.smul_apply, hzero r hki, hzero j hk, smul_zero,
        sub_zero]
    · rw [Matrix.updateRow_ne hri, hzero r hr]

theorem UnitriangularTo.exchange {l : Fin n} (hu : UnitriangularTo j a) (hjl : j ≤ l) :
    UnitriangularTo j (a.submatrix (Equiv.swap j l) id) := by
  intro k hk
  obtain ⟨hone, hzero⟩ := hu k hk
  have hkl : k < l := lt_of_lt_of_le hk hjl
  constructor
  · rw [Matrix.submatrix_apply, Equiv.swap_apply_of_ne_of_ne (Fin.ne_of_lt hk) hkl.ne]
    exact hone
  · intro r hr
    apply hzero
    rw [Equiv.swap_apply_def]
    split_ifs
    · exact hkl
    · exact hk
    · exact hr

theorem UnitriangularTo.next (hu : UnitriangularTo j a) (hj : a j j ≠ 0)
    (hbelow : ∀ i, j < i → a i j = 0) :
    UnitriangularTo (j + 1) (a.updateRow j ((1 / a j j) • a j)) := by
  intro k hk
  rcases lt_or_eq_of_le (Nat.lt_succ_iff.mp hk) with hlt | heq
  · obtain ⟨hone, hzero⟩ := hu k hlt
    constructor
    · rw [Matrix.updateRow_ne (Fin.ne_of_lt hlt), hone]
    · intro r hr
      by_cases hrj : r = j
      · subst hrj
        rw [Matrix.updateRow_self, Pi.smul_apply, hzero r hr, smul_zero]
      · rw [Matrix.updateRow_ne hrj, hzero r hr]
  · obtain rfl : k = j := Fin.ext heq
    constructor
    · rw [Matrix.updateRow_self, Pi.smul_apply, smul_eq_mul, one_div_mul_cancel hj]
    · intro r hr
      rw [Matrix.updateRow_ne hr.ne', hbelow r hr]

end RowsOfTheLoops

section Forward

variable [LinearOrder K] {m : Matrix (Fin n) (Fin n) K} {j : Fin n}

theorem pivotRow_spec (a : Matrix (Fin n) (Fin n) K) (j : Fin n) :
    j ≤ pivotRow a j ∧ ∀ i, j ≤ i → |a i j| ≤ |a (pivotRow a j) j| := by
  have hscan := foldl_of_step (ι := Fin n) (σ := Fin n)
    (P := fun rest l => (∀ i ∈ rest, j < i) ∧ j ≤ l ∧ ∀ i, j ≤ i → i ∉ rest → |a i j| ≤ |a l j|)
    (f := fun l i => if |a l j| < |a i j| then i else l)
    (by
      rintro i rest l ⟨hrest, hl, hmax⟩
      refine ⟨fun r hr => hrest r (List.mem_cons_of_mem _ hr), ?_, ?_⟩
      · split_ifs
        · exact (hrest i List.mem_cons_self).le
        · exact hl
      · intro r hjr hr
        by_cases hri : r = i
        · subst hri
          split_ifs with hlt
          · exact le_rfl
          · exact not_lt.mp hlt
        · have hle := hmax r hjr (by simp [hri, hr])
          split_ifs with hlt
          · exact hle.trans hlt.le
          · exact hle)
    ((List.finRange n).filter fun i => j < i) j
    (by
      refine ⟨fun i hi => by simpa using hi, le_rfl, fun i hji hi => ?_⟩
      have : i = j := le_antisymm (by simpa using hi) hji
      rw [this])
  exact ⟨hscan.2.1, fun i hi => hscan.2.2 i hi List.not_mem_nil⟩

/-- What holds before the pivot in column `j` is chosen. -/
structure Forward (m : Matrix (Fin n) (Fin n) K) (j : ℕ) (st : Augmented n K) : Prop where
  reduces : Reduces m st.a st.v
  unitriangular : UnitriangularTo j st.a

/-- What the loop over the rows below the pivot keeps, with the rows that are left. -/
structure Eliminating (m : Matrix (Fin n) (Fin n) K) (j : Fin n) (rest : List (Fin n))
    (st : Augmented n K) : Prop extends Forward m j st where
  pivot : st.a j j ≠ 0
  below : ∀ i ∈ rest, j < i
  cleared : ∀ i, j < i → i ∉ rest → st.a i j = 0

theorem eliminateBelow_step (i : Fin n) (rest : List (Fin n)) (st : Augmented n K)
    (h : Eliminating m j (i :: rest) st) :
    ∃ st', eliminateBelow j st i = some st' ∧ Eliminating m j rest st' := by
  have hij : j < i := h.below i List.mem_cons_self
  have hrow : ∀ k, k < j → st.a j k = 0 := fun k hk => (h.unitriangular k hk).2 j hk
  refine ⟨⟨st.a.updateRow i (st.a i - (st.a i j / st.a j j) • st.a j),
    st.v.updateRow i (st.v i - (st.a i j / st.a j j) • st.v j)⟩, ?_, ?_⟩
  · rw [eliminateBelow, divide, if_neg h.pivot, Option.bind_eq_bind, Option.bind_some,
      setEntry_subFrom h.pivot hrow, subFrom_zero]
    rfl
  · exact {
      reduces := h.reduces.subRow hij.ne' _
      unitriangular := h.unitriangular.subRow hij _
      pivot := by
        dsimp only
        rw [Matrix.updateRow_ne hij.ne]
        exact h.pivot
      below := fun r hr => h.below r (List.mem_cons_of_mem _ hr)
      cleared := by
        intro r hjr hr
        dsimp only
        by_cases hri : r = i
        · subst hri
          rw [Matrix.updateRow_self, Pi.sub_apply, Pi.smul_apply, smul_eq_mul,
            div_mul_cancel₀ _ h.pivot, sub_self]
        · rw [Matrix.updateRow_ne hri]
          exact h.cleared r hjr (by simp [hri, hr]) }

variable [IsStrictOrderedRing K]

theorem pivotRow_ne_zero {a : Matrix (Fin n) (Fin n) K} (hu : UnitriangularTo j a)
    (hdet : a.det ≠ 0) : a (pivotRow a j) j ≠ 0 := by
  obtain ⟨i, hji, hi⟩ := hu.exists_pivot hdet
  have hmax := (pivotRow_spec a j).2 i hji
  intro h0
  rw [h0, abs_zero] at hmax
  exact hi (abs_nonpos_iff.mp hmax)

theorem exchange_pivot (st : Augmented n K) (h : Forward m j st) :
    let l := pivotRow st.a j
    let st' := if l ≠ j then exchangeRows j l st else st
    Forward m j st' ∧ st'.a j j ≠ 0 := by
  intro l st'
  have hl : st.a l j ≠ 0 := pivotRow_ne_zero h.unitriangular h.reduces.det
  by_cases hlj : l = j
  · have hst : st' = st := if_neg (not_not.mpr hlj)
    rw [hst]
    rw [hlj] at hl
    exact ⟨h, hl⟩
  · have hst : st' = exchangeRows j l st := if_pos hlj
    rw [hst]
    refine ⟨⟨h.reduces.exchange j l, h.unitriangular.exchange (pivotRow_spec st.a j).1⟩, ?_⟩
    show st.a (Equiv.swap j l j) j ≠ 0
    rw [Equiv.swap_apply_left]
    exact hl

theorem forwardPass_step (j : Fin n) (st : Augmented n K) (h : Forward m j st) :
    ∃ st', forwardPass st j = some st' ∧ Forward m (j + 1) st' := by
  obtain ⟨hexchange, hpivot⟩ := exchange_pivot st h
  obtain ⟨mid, hmid, helim⟩ := foldlM_of_step (P := Eliminating m j) eliminateBelow_step
    ((List.finRange n).filter fun i => j < i) _
    ⟨hexchange, hpivot, fun i hi => by simpa using hi,
      fun i hji hi => absurd hji (by simpa using hi)⟩
  have hrow : ∀ k, k < j → mid.a j k = 0 := fun k hk => (helim.unitriangular k hk).2 j hk
  refine ⟨⟨mid.a.updateRow j ((1 / mid.a j j) • mid.a j),
    mid.v.updateRow j ((1 / mid.a j j) • mid.v j)⟩, ?_, ?_⟩
  · rw [forwardPass, hmid, Option.bind_eq_bind, Option.bind_some, divide, if_neg helim.pivot,
      Option.bind_eq_bind, Option.bind_some, setEntry_mulFrom helim.pivot hrow, mulFrom_zero]
    rfl
  · exact ⟨helim.reduces.smulRow j (one_div_ne_zero helim.pivot),
      helim.unitriangular.next helim.pivot fun i hji => helim.cleared i hji List.not_mem_nil⟩

end Forward

section Backward

variable {m : Matrix (Fin n) (Fin n) K} {j : Fin n}

/-- What holds when the columns from `c` on are clear. -/
structure Backward (m : Matrix (Fin n) (Fin n) K) (c : ℕ) (st : Augmented n K) : Prop where
  reduces : Reduces m st.a st.v
  unitriangular : UnitriangularTo n st.a
  clear : ClearFrom c st.a

/-- What the loop over the rows above the pivot keeps, with the rows that are left. -/
structure Clearing (m : Matrix (Fin n) (Fin n) K) (j : Fin n) (rest : List (Fin n))
    (st : Augmented n K) : Prop extends Backward m (j + 1) st where
  above : ∀ i ∈ rest, i < j
  cleared : ∀ i, i < j → i ∉ rest → st.a i j = 0

/-- In a row of its own the pivot is all that is left. -/
theorem Backward.pivotRow_entry {st : Augmented n K} (h : Backward m (j + 1) st) {k : Fin n}
    (hk : k ≠ j) : st.a j k = 0 := by
  rcases lt_or_gt_of_ne hk with hlt | hgt
  · exact (h.unitriangular k k.isLt).2 j hlt
  · exact h.clear k hgt j hgt

theorem clearAbove_eq {st : Augmented n K} (h : Backward m (j + 1) st) (i : Fin n) :
    clearAbove j st i = ⟨st.a.updateRow i (st.a i - st.a i j • st.a j),
      st.v.updateRow i (st.v i - st.a i j • st.v j)⟩ := by
  rw [clearAbove, subFrom_eq fun k hk => h.pivotRow_entry (Fin.ne_of_lt hk), subFrom_zero]

/-- Only the entry above the pivot is changed. -/
theorem clearAbove_entry {st : Augmented n K} (h : Backward m (j + 1) st) (i r k : Fin n) :
    (clearAbove j st i).a r k = if r = i ∧ k = j then 0 else st.a r k := by
  rw [clearAbove_eq h]
  dsimp only
  by_cases hri : r = i
  · subst hri
    rw [Matrix.updateRow_self, Pi.sub_apply, Pi.smul_apply, smul_eq_mul]
    by_cases hkj : k = j
    · subst hkj
      rw [(h.unitriangular k k.isLt).1, mul_one, sub_self, if_pos ⟨rfl, rfl⟩]
    · rw [h.pivotRow_entry hkj, mul_zero, sub_zero, if_neg fun hc => hkj hc.2]
  · rw [Matrix.updateRow_ne hri, if_neg fun hc => hri hc.1]

theorem clearAbove_step (i : Fin n) (rest : List (Fin n)) (st : Augmented n K)
    (h : Clearing m j (i :: rest) st) : Clearing m j rest (clearAbove j st i) := by
  have hij : i < j := h.above i List.mem_cons_self
  have hentry := clearAbove_entry h.toBackward i
  refine ⟨⟨?_, ?_, ?_⟩, fun r hr => h.above r (List.mem_cons_of_mem _ hr), ?_⟩
  · rw [clearAbove_eq h.toBackward]
    exact h.reduces.subRow hij.ne _
  · intro k hk
    obtain ⟨hone, hzero⟩ := h.unitriangular k hk
    constructor
    · rw [hentry, if_neg fun hc => hij.ne (hc.1.symm.trans hc.2), hone]
    · intro r hr
      rw [hentry, hzero r hr, ite_self]
  · intro k hk r hr
    rw [hentry, h.clear k hk r hr, ite_self]
  · intro r hrj hr
    rw [hentry]
    by_cases hri : r = i
    · rw [if_pos ⟨hri, rfl⟩]
    · rw [if_neg fun hc => hri hc.1]
      exact h.cleared r hrj (by simp [hri, hr])

theorem backwardPass_step (j : Fin n) (st : Augmented n K) (h : Backward m (j + 1) st) :
    Backward m j (backwardPass st j) := by
  have hloop := foldl_of_step (P := Clearing m j) clearAbove_step
    ((List.finRange n).reverse.filter fun i => i < j) st
    ⟨h, fun i hi => by simpa using hi, fun i hij hi => absurd hij (by simpa using hi)⟩
  refine ⟨hloop.reduces, hloop.unitriangular, fun k hk i hik => ?_⟩
  rcases eq_or_lt_of_le hk with heq | hlt
  · obtain rfl : j = k := Fin.ext heq
    exact hloop.cleared i hik List.not_mem_nil
  · exact hloop.clear k hlt i hik

/-- The source skips column 0, above which there is nothing. -/
theorem backwardPass_all (st : Augmented n K) (h : Backward m n st) :
    Backward m 0 (((List.finRange n).reverse.filter fun j => 0 < j.val).foldl backwardPass st) := by
  rw [List.foldl_filter, List.foldl_reverse]
  apply foldr_finRange_of_step _ st h
  intro j st hst
  by_cases hj : 0 < j.val
  · simpa [hj] using backwardPass_step j st hst
  · have h0 : j.val = 0 := by omega
    simp only [hj, decide_false, Bool.false_eq_true, if_false]
    exact ⟨hst.reduces, hst.unitriangular, fun k hk i hik =>
      hst.clear k (by have := Nat.zero_le i.val; omega) i hik⟩

end Backward

section Inverse

variable [LinearOrder K] [IsStrictOrderedRing K]

/-- Whatever the order of the pivots, none of them is zero and the result is the inverse. -/
theorem inverseCopy_spec {m : Matrix (Fin n) (Fin n) K} (hm : m.det ≠ 0) :
    ∃ v, inverseCopy m = some v ∧ m * v = 1 ∧ v * m = 1 := by
  obtain ⟨mid, hmid, hforward⟩ := foldlM_finRange_of_step (P := Forward m) forwardPass_step ⟨m, 1⟩
    ⟨Reduces.start hm, fun k hk => absurd hk (Nat.not_lt_zero k)⟩
  have hend := backwardPass_all mid ⟨hforward.reduces, hforward.unitriangular,
    fun k hk => absurd k.isLt (not_lt.mpr hk)⟩
  refine ⟨_, ?_, hend.reduces.inverse (eq_one_of_clear hend.unitriangular hend.clear)⟩
  rw [inverseCopy, hmid]
  rfl

theorem mat4fInverseCopy_spec {m : Mat4 K} (hm : IsUnit m.toMatrix) :
    ∃ v, mat4fInverseCopy m = some v ∧ mat4fMulmCopy m v = Mat4.identity ∧
      mat4fMulmCopy v m = Mat4.identity := by
  have hdet : m.toMatrix.det ≠ 0 := ((Matrix.isUnit_iff_isUnit_det _).mp hm).ne_zero
  obtain ⟨v, hv, hleft, hright⟩ := inverseCopy_spec hdet
  refine ⟨Mat4.ofMatrix v, ?_, ?_, ?_⟩
  · rw [mat4fInverseCopy, hv]
    rfl
  · apply Mat4.toMatrix_injective
    simpa using hleft
  · apply Mat4.toMatrix_injective
    simpa using hright

theorem mat3fInverseCopy_spec {m : Mat3 K} (hm : IsUnit m.toMatrix) :
    ∃ v, mat3fInverseCopy m = some v ∧ mat3fMulmCopy m v = Mat3.identity ∧
      mat3fMulmCopy v m = Mat3.identity := by
  have hdet : m.toMatrix.det ≠ 0 := ((Matrix.isUnit_iff_isUnit_det _).mp hm).ne_zero
  obtain ⟨v, hv, hleft, hright⟩ := inverseCopy_spec hdet
  refine ⟨Mat3.ofMatrix v, ?_, ?_, ?_⟩
  · rw [mat3fInverseCopy, hv]
    rfl
  · apply Mat3.toMatrix_injective
    simpa using hleft
  · apply Mat3.toMatrix_injective
    simpa using hright

theorem mat4fNormalmatrix_spec {m : Mat4 K} (hm : IsUnit m.upper.toMatrix) :
    ∃ nm, mat4fNormalmatrix m = some nm ∧
      mat3fMulmCopy (mat3fTransposeCopy nm) m.upper = Mat3.identity := by
  obtain ⟨v, hv, -, hright⟩ := mat3fInverseCopy_spec hm
  refine ⟨mat3fTransposeCopy v, ?_, hright⟩
  rw [mat4fNormalmatrix, hv]
  rfl

end Inverse

/-- Over the rationals the elimination divides by no zero and gives the inverse of every
invertible matrix. -/
theorem inverse_copies_correct :
    (∀ m : Mat4 ℚ, IsUnit m.toMatrix → ∃ v, mat4fInverseCopy m = some v ∧
      mat4fMulmCopy m v = Mat4.identity ∧ mat4fMulmCopy v m = Mat4.identity) ∧
    (∀ m : Mat3 ℚ, IsUnit m.toMatrix → ∃ v, mat3fInverseCopy m = some v ∧
      mat3fMulmCopy m v = Mat3.identity ∧ mat3fMulmCopy v m = Mat3.identity) ∧
    (∀ m : Mat4 ℚ, IsUnit m.upper.toMatrix → ∃ nm, mat4fNormalmatrix m = some nm ∧
      mat3fMulmCopy (mat3fTransposeCopy nm) m.upper = Mat3.identity) :=
  ⟨fun _ => mat4fInverseCopy_spec, fun _ => mat3fInverseCopy_spec, fun _ => mat4fNormalmatrix_spec⟩

/-- The first pivots are zero, so rows are swapped. -/
theorem inverse_copies_correct_swap :
    let m : Mat4 ℚ := ⟨0, 0, 1, 0, 2, 0, 0, 0, 0, 3, 1, 0, 5, 6, 7, 1⟩
    (∃ v, mat4fInverseCopy m = some v ∧
      mat4fMulmCopy m v = Mat4.identity ∧ mat4fMulmCopy v m = Mat4.identity) ∧
    (∃ v, mat3fInverseCopy m.upper = some v ∧
      mat3fMulmCopy m.upper v = Mat3.identity ∧ mat3fMulmCopy v m.upper = Mat3.identity) ∧
    (∃ nm, mat4fNormalmatrix m = some nm ∧
      mat3fMulmCopy (mat3fTransposeCopy nm) m.upper = Mat3.identity) := by
  intro m
  have h4 : IsUnit m.toMatrix := by
    rw [Matrix.isUnit_iff_isUnit_det, isUnit_iff_ne_zero]
    decide +kernel
  have h3 : IsUnit m.upper.toMatrix := by
    rw [Matrix.isUnit_iff_isUnit_det, isUnit_iff_ne_zero]
    decide +kernel
  obtain ⟨inv4, inv3, normal⟩ := inverse_copies_correct
  exact ⟨inv4 m h4, inv3 m.upper h3, normal m h3⟩

end LibCC
