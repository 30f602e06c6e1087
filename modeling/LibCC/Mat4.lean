import LibCC.Vec3

/-! The matrices of cc_mat4f.c and cc_mat3f.c over exact numbers. The fields stand in the order
of the C structures, which is that of the columns. -/

namespace LibCC

/-- cc_mat4f_t -/
@[ext] structure Mat4 (K : Type) where
  m00 : K
  m10 : K
  m20 : K
  m30 : K
  m01 : K
  m11 : K
  m21 : K
  m31 : K
  m02 : K
  m12 : K
  m22 : K
  m32 : K
  m03 : K
  m13 : K
  m23 : K
  m33 : K

/-- cc_mat3f_t -/
@[ext] structure Mat3 (K : Type) where
  m00 : K
  m10 : K
  m20 : K
  m01 : K
  m11 : K
  m21 : K
  m02 : K
  m12 : K
  m22 : K

variable {K : Type}

section Ring

variable [Field K]

def mat4fMulmCopy (a m : Mat4 K) : Mat4 K where
  m00 := a.m00 * m.m00 + a.m01 * m.m10 + a.m02 * m.m20 + a.m03 * m.m30
  m01 := a.m00 * m.m01 + a.m01 * m.m11 + a.m02 * m.m21 + a.m03 * m.m31
  m02 := a.m00 * m.m02 + a.m01 * m.m12 + a.m02 * m.m22 + a.m03 * m.m32
  m03 := a.m00 * m.m03 + a.m01 * m.m13 + a.m02 * m.m23 + a.m03 * m.m33
  m10 := a.m10 * m.m00 + a.m11 * m.m10 + a.m12 * m.m20 + a.m13 * m.m30
  m11 := a.m10 * m.m01 + a.m11 * m.m11 + a.m12 * m.m21 + a.m13 * m.m31
  m12 := a.m10 * m.m02 + a.m11 * m.m12 + a.m12 * m.m22 + a.m13 * m.m32
  m13 := a.m10 * m.m03 + a.m11 * m.m13 + a.m12 * m.m23 + a.m13 * m.m33
  m20 := a.m20 * m.m00 + a.m21 * m.m10 + a.m22 * m.m20 + a.m23 * m.m30
  m21 := a.m20 * m.m01 + a.m21 * m.m11 + a.m22 * m.m21 + a.m23 * m.m31
  m22 := a.m20 * m.m02 + a.m21 * m.m12 + a.m22 * m.m22 + a.m23 * m.m32
  m23 := a.m20 * m.m03 + a.m21 * m.m13 + a.m22 * m.m23 + a.m23 * m.m33
  m30 := a.m30 * m.m00 + a.m31 * m.m10 + a.m32 * m.m20 + a.m33 * m.m30
  m31 := a.m30 * m.m01 + a.m31 * m.m11 + a.m32 * m.m21 + a.m33 * m.m31
  m32 := a.m30 * m.m02 + a.m31 * m.m12 + a.m32 * m.m22 + a.m33 * m.m32
  m33 := a.m30 * m.m03 + a.m31 * m.m13 + a.m32 * m.m23 + a.m33 * m.m33

def mat3fMulmCopy (a m : Mat3 K) : Mat3 K where
  m00 := a.m00 * m.m00 + a.m01 * m.m10 + a.m02 * m.m20
  m01 := a.m00 * m.m01 + a.m01 * m.m11 + a.m02 * m.m21
  m02 := a.m00 * m.m02 + a.m01 * m.m12 + a.m02 * m.m22
  m10 := a.m10 * m.m00 + a.m11 * m.m10 + a.m12 * m.m20
  m11 := a.m10 * m.m01 + a.m11 * m.m11 + a.m12 * m.m21
  m12 := a.m10 * m.m02 + a.m11 * m.m12 + a.m12 * m.m22
  m20 := a.m20 * m.m00 + a.m21 * m.m10 + a.m22 * m.m20
  m21 := a.m20 * m.m01 + a.m21 * m.m11 + a.m22 * m.m21
  m22 := a.m20 * m.m02 + a.m21 * m.m12 + a.m22 * m.m22

/-- Most functions either load a matrix or multiply it onto what is there. -/
def mat4fLoadOrMulm (self : Mat4 K) (load : Bool) (m : Mat4 K) : Mat4 K :=
  if load then m else mat4fMulmCopy self m

end Ring

def mat3fTransposeCopy (self : Mat3 K) : Mat3 K where
  m00 := self.m00
  m01 := self.m10
  m02 := self.m20
  m10 := self.m01
  m11 := self.m11
  m12 := self.m21
  m20 := self.m02
  m21 := self.m12
  m22 := self.m22

namespace Mat4

def toMatrix (m : Mat4 K) : Matrix (Fin 4) (Fin 4) K :=
  !![m.m00, m.m01, m.m02, m.m03;
     m.m10, m.m11, m.m12, m.m13;
     m.m20, m.m21, m.m22, m.m23;
     m.m30, m.m31, m.m32, m.m33]

def ofMatrix (a : Matrix (Fin 4) (Fin 4) K) : Mat4 K :=
  ⟨a 0 0, a 1 0, a 2 0, a 3 0, a 0 1, a 1 1, a 2 1, a 3 1,
    a 0 2, a 1 2, a 2 2, a 3 2, a 0 3, a 1 3, a 2 3, a 3 3⟩

theorem toMatrix_injective : Function.Injective (toMatrix : Mat4 K → Matrix (Fin 4) (Fin 4) K) := by
  intro a b h
  have he : ∀ i j, a.toMatrix i j = b.toMatrix i j := fun i j => congrFun (congrFun h i) j
  exact Mat4.ext (he 0 0) (he 1 0) (he 2 0) (he 3 0) (he 0 1) (he 1 1) (he 2 1) (he 3 1)
    (he 0 2) (he 1 2) (he 2 2) (he 3 2) (he 0 3) (he 1 3) (he 2 3) (he 3 3)

@[simp] theorem toMatrix_ofMatrix (a : Matrix (Fin 4) (Fin 4) K) : (ofMatrix a).toMatrix = a := by
  apply Matrix.ext
  intro i j
  fin_cases i <;> fin_cases j <;> rfl

variable [Field K]

def identity : Mat4 K := ⟨1, 0, 0, 0, 0, 1, 0, 0, 0, 0, 1, 0, 0, 0, 0, 1⟩

@[simp] theorem toMatrix_identity : (identity : Mat4 K).toMatrix = 1 := by
  apply Matrix.ext
  intro i j
  fin_cases i <;> fin_cases j <;> simp [identity, toMatrix]

@[simp] theorem toMatrix_mulm (a m : Mat4 K) :
    (mat4fMulmCopy a m).toMatrix = a.toMatrix * m.toMatrix := by
  apply Matrix.ext
  intro i j
  rw [Matrix.mul_apply, Fin.sum_univ_four]
  fin_cases i <;> fin_cases j <;> rfl

end Mat4

namespace Mat3

def toMatrix (m : Mat3 K) : Matrix (Fin 3) (Fin 3) K :=
  !![m.m00, m.m01, m.m02;
     m.m10, m.m11, m.m12;
     m.m20, m.m21, m.m22]

def ofMatrix (a : Matrix (Fin 3) (Fin 3) K) : Mat3 K :=
  ⟨a 0 0, a 1 0, a 2 0, a 0 1, a 1 1, a 2 1, a 0 2, a 1 2, a 2 2⟩

@[simp] theorem toMatrix_ofMatrix (a : Matrix (Fin 3) (Fin 3) K) : (ofMatrix a).toMatrix = a :=
  (Matrix.eta_fin_three a).symm

theorem toMatrix_injective : Function.Injective (toMatrix : Mat3 K → Matrix (Fin 3) (Fin 3) K) := by
  intro a b h
  have he : ∀ i j, a.toMatrix i j = b.toMatrix i j := fun i j => congrFun (congrFun h i) j
  exact Mat3.ext (he 0 0) (he 1 0) (he 2 0) (he 0 1) (he 1 1) (he 2 1) (he 0 2) (he 1 2) (he 2 2)

variable [Field K]

def identity : Mat3 K := ⟨1, 0, 0, 0, 1, 0, 0, 0, 1⟩

@[simp] theorem toMatrix_identity : (identity : Mat3 K).toMatrix = 1 :=
  Matrix.one_fin_three.symm

@[simp] theorem toMatrix_mulm (a m : Mat3 K) :
    (mat3fMulmCopy a m).toMatrix = a.toMatrix * m.toMatrix := by
  apply Matrix.ext
  intro i j
  rw [Matrix.mul_apply, Fin.sum_univ_three]
  fin_cases i <;> fin_cases j <;> rfl

end Mat3

namespace Mat4

/-- The top-left 3x3 sub-region. -/
def upper (m : Mat4 K) : Mat3 K :=
  ⟨m.m00, m.m10, m.m20, m.m01, m.m11, m.m21, m.m02, m.m12, m.m22⟩

theorem det_affine [Field K] {m : Mat4 K} (h0 : m.m30 = 0) (h1 : m.m31 = 0) (h2 : m.m32 = 0) :
    m.toMatrix.det = m.m33 * m.upper.toMatrix.det := by
  have hminor : m.toMatrix.submatrix (Fin.succAbove 3) (Fin.succAbove 3) = m.upper.toMatrix := by
    apply Matrix.ext
    intro i j
    fin_cases i <;> fin_cases j <;> rfl
  have hrow (j : Fin 4) : m.toMatrix 3 j = ![m.m30, m.m31, m.m32, m.m33] j := rfl
  have hsign : (-1 : K) ^ (((3 : Fin 4) : ℕ) + ((3 : Fin 4) : ℕ)) = 1 := Even.neg_one_pow ⟨3, rfl⟩
  rw [Matrix.det_succ_row _ 3, Fin.sum_univ_four, hminor, hsign]
  simp [hrow, h0, h1, h2]

end Mat4

end LibCC
