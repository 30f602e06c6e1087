import Mathlib

/-! Row operations on a square matrix, each of them made on a second matrix as well, and loops
that carry an invariant over what is left to do. -/

namespace LibCC

section Loops

variable {ι σ : Type}

theorem foldl_of_step {P : List ι → σ → Prop} {f : σ → ι → σ}
    (hstep : ∀ i rest st, P (i :: rest) st → P rest (f st i)) (l : List ι) (st : σ) (h : P l st) :
    P [] (l.foldl f st) := by
  induction l generalizing st with
  | nil => exact h
  | cons i rest ih => exact ih (f st i) (hstep i rest st h)

theorem foldlM_of_step {P : List ι → σ → Prop} {f : σ → ι → Option σ}
    (hstep : ∀ i rest st, P (i :: rest) st → ∃ st', f st i = some st' ∧ P rest st')
    (l : List ι) (st : σ) (h : P l st) : ∃ st', l.foldlM f st = some st' ∧ P [] st' := by
  induction l generalizing st with
  | nil => exact ⟨st, rfl, h⟩
  | cons i rest ih =>
    obtain ⟨next, hnext, hrest⟩ := hstep i rest st h
    obtain ⟨st', hst', hend⟩ := ih next hrest
    refine ⟨st', ?_, hend⟩
    rw [List.foldlM_cons, hnext]
    exact hst'

theorem foldlM_finRange_of_step {n : ℕ} {P : ℕ → σ → Prop} {f : σ → Fin n → Option σ}
    (hstep : ∀ (j : Fin n) st, P j st → ∃ st', f st j = some st' ∧ P (j + 1) st') (st : σ)
    (h : P 0 st) : ∃ st', (List.finRange n).foldlM f st = some st' ∧ P n st' := by
  induction n with
  | zero => exact ⟨st, rfl, h⟩
  | succ n ih =>
    obtain ⟨prev, hprev, hn⟩ := ih fun j => hstep j.castSucc
    obtain ⟨st', hst', hend⟩ := hstep (Fin.last n) prev hn
    refine ⟨st', ?_, hend⟩
    rw [List.finRange_succ_last, List.foldlM_append, List.foldlM_map, hprev]
    simpa using hst'

theorem foldr_finRange_of_step {n : ℕ} {P : ℕ → σ → Prop} {f : Fin n → σ → σ}
    (hstep : ∀ (j : Fin n) st, P (j + 1) st → P j (f j st)) (st : σ) (h : P n st) :
    P 0 ((List.finRange n).foldr f st) := by
  induction n generalizing st with
  | zero => exact h
  | succ n ih =>
    rw [List.finRange_succ_last, List.foldr_append, List.foldr_map]
    exact ih (fun j => hstep j.castSucc) _ (hstep (Fin.last n) st h)

end Loops

section Rows

variable {n : ℕ} {K : Type} [Field K]

/-- `a` and `v` came from `m` and 1 by the same row operations. -/
structure Reduces (m a v : Matrix (Fin n) (Fin n) K) : Prop where
  mul : v * m = a
  det : a.det ≠ 0

namespace Reduces

variable {m a v : Matrix (Fin n) (Fin n) K}

theorem start (h : m.det ≠ 0) : Reduces m m 1 := ⟨Matrix.one_mul m, h⟩

theorem exchange (h : Reduces m a v) (j l : Fin n) :
    Reduces m (a.submatrix (Equiv.swap j l) id) (v.submatrix (Equiv.swap j l) id) := by
  constructor
  · rw [← h.mul]
    exact Matrix.submatrix_mul_equiv v m (Equiv.swap j l) (Equiv.refl _) id
  · rw [Matrix.det_permute]
    apply mul_ne_zero _ h.det
    rcases Int.units_eq_one_or (Equiv.Perm.sign (Equiv.swap j l)) with hs | hs <;> simp [hs]

theorem subRow (h : Reduces m a v) {i j : Fin n} (hij : i ≠ j) (s : K) :
    Reduces m (a.updateRow i (a i - s • a j)) (v.updateRow i (v i - s • v j)) := by
  constructor
  · rw [Matrix.updateRow_mul, Matrix.sub_vecMul, Matrix.smul_vecMul, ← h.mul]
    rfl
  · rw [sub_eq_add_neg, ← neg_smul, Matrix.det_updateRow_add_smul_self a hij]
    exact h.det

theorem smulRow (h : Reduces m a v) (j : Fin n) {s : K} (hs : s ≠ 0) :
    Reduces m (a.updateRow j (s • a j)) (v.updateRow j (s • v j)) := by
  constructor
  · rw [Matrix.updateRow_mul, Matrix.smul_vecMul, ← h.mul]
    rfl
  · rw [Matrix.det_updateRow_smul, Matrix.updateRow_eq_self]
    exact mul_ne_zero hs h.det

theorem inverse (h : Reduces m a v) (ha : a = 1) : m * v = 1 ∧ v * m = 1 := by
  have hv : v * m = 1 := h.mul.trans ha
  exact ⟨mul_eq_one_comm.mp hv, hv⟩

end Reduces

/-- The first `c` columns have ones on the diagonal and zeros below it. -/
def UnitriangularTo (c : ℕ) (a : Matrix (Fin n) (Fin n) K) : Prop :=
  ∀ k : Fin n, k < c → a k k = 1 ∧ ∀ i, k < i → a i k = 0

/-- The columns from `c` on have zeros above the diagonal. -/
def ClearFrom (c : ℕ) (a : Matrix (Fin n) (Fin n) K) : Prop :=
  ∀ k : Fin n, c ≤ k → ∀ i, i < k → a i k = 0

theorem eq_one_of_clear {a : Matrix (Fin n) (Fin n) K} (hu : UnitriangularTo n a)
    (hc : ClearFrom 0 a) : a = 1 := by
  apply Matrix.ext
  intro i k
  rcases lt_trichotomy i k with hlt | rfl | hgt
  · rw [hc k (Nat.zero_le _) i hlt, Matrix.one_apply_ne hlt.ne]
  · rw [(hu i i.isLt).1, Matrix.one_apply_eq]
  · rw [(hu k k.isLt).2 i hgt, Matrix.one_apply_ne hgt.ne']

/-- Below the columns that are done there is a nonzero entry in the next one. -/
theorem UnitriangularTo.exists_pivot {a : Matrix (Fin n) (Fin n) K} {j : Fin n}
    (hu : UnitriangularTo j a) (hdet : a.det ≠ 0) : ∃ i, j ≤ i ∧ a i j ≠ 0 := by
  by_contra hnone
  push Not at hnone
  apply hdet
  rw [Matrix.twoBlockTriangular_det a (fun i => i < j) fun i hi k hk =>
    (hu k hk).2 i (lt_of_lt_of_le hk (not_lt.mp hi))]
  rw [Matrix.det_eq_zero_of_column_eq_zero (A := a.toSquareBlockProp fun i => ¬i < j)
    ⟨j, lt_irrefl j⟩ fun i => hnone i (not_lt.mp i.2), mul_zero]

end Rows

end LibCC
